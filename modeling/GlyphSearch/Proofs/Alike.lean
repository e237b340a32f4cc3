import GlyphSearch.Proofs.Requests
import GlyphSearch.Proofs.SameDataset

/-!
# Services that no request tells apart

Responses tell of a dataset, of the counters, of the time and of how far
loading has come. They do not tell where the dataset lies. So two services that
come to the same dataset in two directories, and unpack as many members for it,
answer a request alike and are alike afterwards; hence they answer all requests
of a row alike.

The first request for the dataset loads it, and all later ones find it. Both
services go through this together, which is what `Alike` says of them.
-/

namespace GlyphSearch.Service

open Dataset Loading Query

/-- What is opened in a directory, by what there is to open. -/
def placed (directory : Directory) (o : Outcome) : Outcome :=
  o.map fun d => { d with directory := some directory }

/-- Nobody has asked a service for its dataset, which is there to be loaded. -/
structure Unasked (o : Outcome) (members : Nat) (s : Service) : Prop where
  loader_eq : s.loader = .start
  notHeldBack : s.heldBack = false
  members_eq : (load s.source s.layout s.disk).members = members
  result_eq : ∃ directory, (load s.source s.layout s.disk).result = placed directory o

/-- A service has loaded its dataset, or has failed to. -/
def Holds (o : Outcome) (s : Service) : Prop :=
  ∃ directory, s.loader.published = some (placed directory o)

/-- Whether two services differ in nothing that responses tell. -/
structure Alike (o : Outcome) (members : Nat) (s t : Service) : Prop where
  bodyLimit_eq : t.bodyLimit = s.bodyLimit
  now_eq : t.now = s.now
  counters_eq : t.counters = s.counters
  phase : (Unasked o members s ∧ Unasked o members t) ∨ (Holds o s ∧ Holds o t)

/-- Whether two services have given the same and are alike after that. -/
structure Agree {α : Type} (o : Outcome) (members : Nat) (a b : Service × α) : Prop where
  alike : Alike o members a.1 b.1
  eq : b.2 = a.2

/-- What a service gives that has been asked for its dataset. -/
structure Gives (o : Outcome) (counters : Counters) (s : Service)
    (got : Service × Except Error Dataset) : Prop where
  bodyLimit_eq : got.1.bodyLimit = s.bodyLimit
  now_eq : got.1.now = s.now
  counters_eq : got.1.counters = counters
  holds : ∃ directory, got.1.loader.published = some (placed directory o) ∧
    got.2 = unwrap (placed directory o)

variable {o : Outcome} {members : Nat} {s t : Service}

theorem isReady_placed (directory : Directory) (o : Outcome) :
    isReady (placed directory o) = isReady o := by
  cases o <;> rfl

theorem Unasked.get (h : Unasked o members s) :
    Gives o (s.counters.load (isReady o) members) s s.get := by
  obtain ⟨directory, hresult⟩ := h.result_eq
  obtain ⟨disk, log, loader, hget, hpublished⟩ := get_of_start h.loader_eq h.notHeldBack
  rw [hresult] at hpublished
  rw [hget, hresult, isReady_placed, h.members_eq]
  exact ⟨rfl, rfl, rfl, directory, hpublished, rfl⟩

theorem Holds.get (h : Holds o s) : Gives o s.counters s s.get := by
  obtain ⟨directory, hpublished⟩ := h
  rw [(settled_of_published hpublished).get_eq]
  exact ⟨rfl, rfl, rfl, directory, hpublished, rfl⟩

/-- Where the dataset lies does not matter to an answer. -/
theorem exists_respond (o : Outcome) (query : List Single) (version : Option String) :
    ∃ n answer, ∀ directory s, respond s (unwrap (placed directory o)) query version =
      ({ s with searches := s.searches + n }, answer) := by
  cases o with
  | error e => exact ⟨0, .error (.loadFailed e), fun _ _ => rfl⟩
  | ok d =>
      have hprepare : ∀ directory : Directory,
          prepare { d with directory := some directory } query version = prepare d query version :=
        fun _ => rfl
      cases hprepared : prepare d query version with
      | error e =>
          refine ⟨0, .error e, fun directory s => ?_⟩
          exact answer_of_refused ((hprepare directory).trans hprepared)
      | ok fitted =>
          refine ⟨1, searchFitted d fitted resultCount, fun directory s => ?_⟩
          show s.answer { d with directory := some directory } query version = _
          rw [answer, hprepare, hprepared]
          rfl

/-- Two services that have loaded the same answer queries alike, whatever else
they have done. -/
theorem Holds.handle_eq (hs : Holds o s) (ht : Holds o t) (text : String)
    (version : Option String) : (t.handle text version).2 = (s.handle text version).2 := by
  rw [handle, handle]
  cases parse text with
  | error e => rfl
  | ok query =>
      obtain ⟨directory, -, hgot⟩ := hs.get.holds
      obtain ⟨directory', -, hgot'⟩ := ht.get.holds
      obtain ⟨n, answer, hrespond⟩ := exists_respond o query version
      dsimp only
      rw [hgot, hgot', hrespond, hrespond]

namespace Alike

theorem get (h : Alike o members s t) : Alike o members s.get.1 t.get.1 ∧
    ∃ directory directory', s.get.2 = unwrap (placed directory o) ∧
      t.get.2 = unwrap (placed directory' o) := by
  obtain ⟨counters, hs, ht⟩ : ∃ counters, Gives o counters s s.get ∧ Gives o counters t t.get := by
    rcases h.phase with ⟨hs, ht⟩ | ⟨hs, ht⟩
    · exact ⟨_, hs.get, h.counters_eq ▸ ht.get⟩
    · exact ⟨_, hs.get, h.counters_eq ▸ ht.get⟩
  obtain ⟨directory, hpublished, hgot⟩ := hs.holds
  obtain ⟨directory', hpublished', hgot'⟩ := ht.holds
  refine ⟨⟨?_, ?_, ht.counters_eq.trans hs.counters_eq.symm,
    .inr ⟨⟨_, hpublished⟩, ⟨_, hpublished'⟩⟩⟩, _, _, hgot, hgot'⟩
  · rw [ht.bodyLimit_eq, hs.bodyLimit_eq, h.bodyLimit_eq]
  · rw [ht.now_eq, hs.now_eq, h.now_eq]

theorem search (h : Alike o members s t) (n : Nat) :
    Alike o members { s with searches := s.searches + n }
      { t with searches := t.searches + n } :=
  { h with phase := h.phase.imp (fun ⟨hs, ht⟩ => ⟨{ hs with }, { ht with }⟩) id }

theorem count (h : Alike o members s t) (status : Status) :
    Alike o members { s with counters := s.counters.query status }
      { t with counters := t.counters.query status } :=
  { h with
    counters_eq := congrArg (·.query status) h.counters_eq
    phase := h.phase.imp (fun ⟨hs, ht⟩ => ⟨{ hs with }, { ht with }⟩) id }

theorem handle (h : Alike o members s t) (text : String) (version : Option String) :
    Agree o members (s.handle text version) (t.handle text version) := by
  rw [Service.handle, Service.handle]
  cases parse text with
  | error e => exact ⟨h, rfl⟩
  | ok query =>
      obtain ⟨halike, directory, directory', hgot, hgot'⟩ := h.get
      obtain ⟨n, answer, hrespond⟩ := exists_respond o query version
      dsimp only
      rw [hgot, hgot', hrespond, hrespond]
      exact ⟨halike.search n, rfl⟩

/-- Both services are as far with loading. -/
theorem stage_eq (h : Alike o members s t) : t.stage = s.stage := by
  rcases h.phase with ⟨hs, ht⟩ | ⟨⟨directory, hs⟩, directory', ht⟩
  · rw [stage, stage, hs.loader_eq, ht.loader_eq]
  · have hstage : s.stage = Shared.stageOf isReady (placed directory o) :=
      Shared.stage_of_published isReady hs
    have hstage' : t.stage = Shared.stageOf isReady (placed directory' o) :=
      Shared.stage_of_published isReady ht
    rw [hstage, hstage', Shared.stageOf, Shared.stageOf, isReady_placed, isReady_placed]

end Alike

end GlyphSearch.Service

namespace GlyphSearch.Http

open Service

variable {o : Outcome} {members : Nat} {s t : Service}

/-! ## Handlers -/

/-- Whether a handler answers alike where services are alike. -/
def Handler.AnswersAlike (h : Handler) : Prop :=
  ∀ ⦃o members s t⦄, Alike o members s t → ∀ r, Agree o members (h r s) (h r t)

theorem runSearch_agree (halike : Alike o members s t) (fields : SearchFields) :
    Agree o members (runSearch fields s) (runSearch fields t) := by
  rw [runSearch, runSearch]
  split
  · exact ⟨halike.count .invalid, rfl⟩
  · obtain ⟨hafter, hresult⟩ := halike.handle (fields.query.getD "") fields.version
    generalize s.handle (fields.query.getD "") fields.version = handled at hafter hresult
    generalize t.handle (fields.query.getD "") fields.version = handled' at hafter hresult
    obtain ⟨u, result⟩ := handled
    obtain ⟨v, result'⟩ := handled'
    obtain rfl : result' = result := hresult
    cases result' with
    | ok hits => exact ⟨hafter.count .ok, rfl⟩
    | error e => exact ⟨hafter.count (.ofCode e.status), rfl⟩

theorem answersAlike_searchUrl : Handler.AnswersAlike searchUrl := by
  intro o members s t halike r
  rw [searchUrl, searchUrl]
  cases urlFields r with
  | error e => exact ⟨halike, rfl⟩
  | ok fields => exact runSearch_agree halike fields

theorem answersAlike_searchForm : Handler.AnswersAlike searchForm := by
  intro o members s t halike r
  rw [searchForm, searchForm, halike.bodyLimit_eq]
  cases urlFields r with
  | error e => exact ⟨halike, rfl⟩
  | ok url =>
      dsimp only
      cases formFields s.bodyLimit r with
      | error e => exact ⟨halike, rfl⟩
      | ok form => exact runSearch_agree halike (form.or url)

theorem answersAlike_warmUp : Handler.AnswersAlike warmUp := by
  intro o members s t halike r
  obtain ⟨hafter, directory, directory', hgot, hgot'⟩ := halike.get
  rw [warmUp, warmUp]
  generalize s.get = got at hafter hgot
  generalize t.get = got' at hafter hgot'
  obtain ⟨u, result⟩ := got
  obtain ⟨v, result'⟩ := got'
  obtain rfl : result = unwrap (placed directory o) := hgot
  obtain rfl : result' = unwrap (placed directory' o) := hgot'
  cases o with
  | error e => exact ⟨hafter, rfl⟩
  | ok d =>
      refine ⟨hafter, ?_⟩
      show Response.json 200 (datasetDocument d v.now) = .json 200 (datasetDocument d u.now)
      rw [hafter.now_eq]

theorem answersAlike_health : Handler.AnswersAlike health := by
  intro o members s t halike r
  refine ⟨halike, ?_⟩
  rw [health, health, halike.stage_eq]

theorem answersAlike_metrics : Handler.AnswersAlike metrics := by
  intro o members s t halike r
  refine ⟨halike, ?_⟩
  rw [metrics, metrics, halike.counters_eq]

theorem answersAlike_refuse (status : Nat) : (refuse status).AnswersAlike :=
  fun _ _ _ _ halike _ => ⟨halike, rfl⟩

namespace Handler.AnswersAlike

theorem headOf {h : Handler} (hh : h.AnswersAlike) : (Http.headOf h).AnswersAlike := by
  intro o members s t halike r
  obtain ⟨hafter, heq⟩ := hh halike r
  exact ⟨hafter, congrArg Response.withoutBody heq⟩

theorem guarded {h : Handler} (hh : h.AnswersAlike) : (Http.guarded h).AnswersAlike := by
  intro o members s t halike r
  rw [Http.guarded, Http.guarded, halike.bodyLimit_eq]
  split
  · exact ⟨halike, rfl⟩
  split
  · exact ⟨halike, rfl⟩
  · obtain ⟨hafter, heq⟩ := hh halike r
    exact ⟨hafter, congrArg (·.withHeaders sharedHeaders) heq⟩

theorem of_mem_routes {route : Route} (hroute : route ∈ routes) {method : String} {h : Handler}
    (hh : route.handler? method = some h) : h.AnswersAlike := by
  rcases handler_cases hroute hh with ⟨-, hsearch⟩ | ⟨base, hbase, hcase⟩
  · rcases searchHandler?_eq_some hsearch with ⟨-, rfl⟩ | ⟨-, rfl⟩ | ⟨-, rfl⟩
    · exact answersAlike_searchUrl
    · exact answersAlike_searchUrl.headOf
    · exact answersAlike_searchForm
  have halike : ∀ base ∈ [warmUp, health, metrics], Handler.AnswersAlike base :=
    List.forall_mem_cons.mpr ⟨answersAlike_warmUp, List.forall_mem_cons.mpr
      ⟨answersAlike_health, List.forall_mem_singleton.mpr answersAlike_metrics⟩⟩
  rcases hcase with rfl | rfl
  · exact halike _ hbase
  · exact (halike _ hbase).headOf

end Handler.AnswersAlike

/-! ## Requests one after the other -/

theorem answersAlike_respond : Handler.AnswersAlike respond := by
  intro o members s t halike r
  rw [respond, respond]
  split
  · exact (answersAlike_refuse 404).guarded halike r
  · next route hfind =>
      split
      · next h hh =>
          exact (Handler.AnswersAlike.of_mem_routes (List.mem_of_find?_eq_some hfind) hh).guarded
            halike r
      · obtain ⟨hafter, heq⟩ := (answersAlike_refuse 405).guarded halike r
        exact ⟨hafter, congrArg (·.withHeaders [("allow", route.allowed)]) heq⟩

/-- The responses of a service to requests one after the other. -/
def responses (s : Service) : List Request → List Response
  | [] => []
  | r :: requests => (respond r s).2 :: responses (respond r s).1 requests

theorem responses_eq (h : Alike o members s t) (requests : List Request) :
    responses t requests = responses s requests := by
  induction requests generalizing s t with
  | nil => rfl
  | cons r requests ih =>
      obtain ⟨hafter, heq⟩ := answersAlike_respond h r
      rw [responses, responses, heq, ih hafter]

end GlyphSearch.Http
