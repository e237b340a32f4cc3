import GlyphSearch.Proofs.BodyLimit
import GlyphSearch.Proofs.Settling

/-!
# What is counted of searches

Searches are counted by the outcome of their response, and so are their
durations. Only `runSearch` counts, once for every search that gets to it, and
nothing else that goes on in a service touches these numbers, not even the load
that a search may wait for.

A search whose fields cannot be read does not get there: it is answered with
the status of an invalid search and counted nowhere. So over a whole run the
numbers rise by as many searches of each outcome as were well formed, and the
searches that are missing are exactly the malformed ones.
-/

namespace GlyphSearch

theorem Error.status_mem (e : Error) : e.status ∈ [400, 404, 500, 503] := by
  rw [status.eq_def]
  split <;> decide

/-! ## Fields that can be read -/

namespace Http

open Service Text

/-- Whether no field of a search is there twice. -/
def NamesOnce (form : Bytes) : Prop :=
  ∀ name ∈ [SearchFields.queryName, SearchFields.versionName],
    (valuesOf name (parsePairs form)).length ≤ 1

instance : DecidablePred NamesOnce := fun form =>
  inferInstanceAs (Decidable (∀ name ∈ [SearchFields.queryName, SearchFields.versionName],
    (valuesOf name (parsePairs form)).length ≤ 1))

/-- Fields that have been collected are all that is there of them. -/
theorem SearchFields.of_collect_eq_ok {known fields : SearchFields}
    {pairs : List (String × String)} (h : collect known pairs = .ok fields) :
    known.query.toList ++ valuesOf queryName pairs = fields.query.toList ∧
    known.version.toList ++ valuesOf versionName pairs = fields.version.toList := by
  induction pairs generalizing known with
  | nil =>
      cases h
      exact ⟨List.append_nil _, List.append_nil _⟩
  | cons pair pairs ih =>
      obtain ⟨name, value⟩ := pair
      have hne : queryName ≠ versionName := by decide
      rw [collect] at h
      by_cases hq : name = queryName
      · subst hq
        rw [if_pos rfl] at h
        split at h
        · cases h
        · next hnone =>
            obtain ⟨hquery, hversion⟩ := ih h
            rw [valuesOf_cons_of_eq, valuesOf_cons_of_ne hne,
              Option.not_isSome_iff_eq_none.mp hnone]
            exact ⟨hquery, hversion⟩
      rw [if_neg hq] at h
      rw [valuesOf_cons_of_ne hq]
      by_cases hv : name = versionName
      · subst hv
        rw [if_pos rfl] at h
        split at h
        · cases h
        · next hnone =>
            obtain ⟨hquery, hversion⟩ := ih h
            rw [valuesOf_cons_of_eq, Option.not_isSome_iff_eq_none.mp hnone]
            exact ⟨hquery, hversion⟩
      rw [if_neg hv] at h
      rw [valuesOf_cons_of_ne hv]
      exact ih h

theorem exists_toList_eq {values : List String} (h : values.length ≤ 1) :
    ∃ o : Option String, values = o.toList := by
  match values with
  | [] => exact ⟨none, rfl⟩
  | [value] => exact ⟨some value, rfl⟩
  | _ :: _ :: _ =>
      simp only [List.length_cons] at h
      omega

/-- The fields of a form can be read exactly if none is there twice. -/
theorem exists_parse_iff {form : Bytes} :
    (∃ fields, SearchFields.parse form = .ok fields) ↔ NamesOnce form := by
  constructor
  · rintro ⟨fields, h⟩
    obtain ⟨hquery, hversion⟩ := SearchFields.of_collect_eq_ok h
    rw [SearchFields.empty, Option.toList_none, List.nil_append] at hquery hversion
    refine List.forall_mem_cons.mpr ⟨?_, List.forall_mem_singleton.mpr ?_⟩
    · rw [hquery]
      exact Option.length_toList_le
    · rw [hversion]
      exact Option.length_toList_le
  · intro h
    obtain ⟨query, hquery⟩ := exists_toList_eq (h SearchFields.queryName (by decide))
    obtain ⟨version, hversion⟩ := exists_toList_eq (h SearchFields.versionName (by decide))
    exact ⟨⟨query, version⟩, SearchFields.collect_eq_ok hquery hversion⟩

end Http

/-! ## What counts no search -/

namespace Service

open Dataset Loading

variable {s t u : Service}

/-- The number of an outcome. -/
def Tally.of (tally : Tally) : Status → Nat
  | .ok => tally.ok
  | .invalid => tally.invalid
  | .error => tally.error

/-- The number of all outcomes. -/
def Tally.total (tally : Tally) : Nat := tally.ok + tally.invalid + tally.error

@[simp]
theorem Tally.of_count (tally : Tally) (status status' : Status) :
    (tally.count status).of status' = tally.of status' + if status = status' then 1 else 0 := by
  cases status <;> cases status' <;> rfl

@[simp]
theorem Tally.total_count (tally : Tally) (status : Status) :
    (tally.count status).total = tally.total + 1 := by
  cases status <;> simp only [Tally.count, Tally.total] <;> omega

/-- What happens to a service without a search being counted. -/
structure CountsNothing (s t : Service) : Prop where
  queries : t.counters.queries = s.counters.queries
  durations : t.counters.queryDurations = s.counters.queryDurations
  bodyLimit : t.bodyLimit = s.bodyLimit

/-- What happens to a service when a search is counted, by the status of its
response. -/
structure CountsOnce (code : Nat) (s t : Service) : Prop where
  queries : t.counters.queries = s.counters.queries.count (.ofCode code)
  durations : t.counters.queryDurations = s.counters.queryDurations.count (.ofCode code)
  bodyLimit : t.bodyLimit = s.bodyLimit

/-- The class of the status that responses with an outcome have. -/
def Status.Covers : Status → Nat → Prop
  | .ok, code => code = 200
  | .invalid, code => 400 ≤ code ∧ code < 500
  | .error, code => 500 ≤ code ∧ code < 600

instance (status : Status) (code : Nat) : Decidable (status.Covers code) :=
  match status with
  | .ok => inferInstanceAs (Decidable (code = 200))
  | .invalid => inferInstanceAs (Decidable (400 ≤ code ∧ code < 500))
  | .error => inferInstanceAs (Decidable (500 ≤ code ∧ code < 600))

/-- The status of every answer to a search is in the class of its outcome. -/
theorem Status.covers_iff {status : Status} {code : Nat}
    (hcode : code ∈ [200, 400, 404, 500, 503]) : status.Covers code ↔ ofCode code = status := by
  revert code
  cases status <;> decide

/-- The two families of numbers that searches are counted in. -/
def searchTallies : List (Counters → Tally) := [Counters.queries, Counters.queryDurations]

theorem CountsOnce.tally_eq {code : Nat} (h : CountsOnce code s t) :
    ∀ tally ∈ searchTallies, tally t.counters = (tally s.counters).count (.ofCode code) :=
  List.forall_mem_cons.mpr ⟨h.queries, List.forall_mem_singleton.mpr h.durations⟩

namespace CountsNothing

theorem tally_eq (h : CountsNothing s t) :
    ∀ tally ∈ searchTallies, tally t.counters = tally s.counters :=
  List.forall_mem_cons.mpr ⟨h.queries, List.forall_mem_singleton.mpr h.durations⟩

theorem refl (s : Service) : CountsNothing s s := ⟨rfl, rfl, rfl⟩

theorem trans (h : CountsNothing s t) (h' : CountsNothing t u) : CountsNothing s u :=
  ⟨h'.queries.trans h.queries, h'.durations.trans h.durations, h'.bodyLimit.trans h.bodyLimit⟩

end CountsNothing

/-- A load is counted as a load alone. -/
theorem countsNothing_endLoad (loaded : Loaded) (s : Service) (load : Nat) :
    CountsNothing s (endLoad (conclude loaded) s load) := by
  obtain ⟨disk, counters, log, heq⟩ := endLoad_eq loaded s load
  have hcounters := endLoad_counters loaded s load
  refine ⟨?_, ?_, by rw [heq]⟩
  · rw [hcounters]
    rfl
  · rw [hcounters]
    rfl

theorem countsNothing_endLoads {finish : Service → Service × Outcome}
    (hfinish : ∀ s, ∃ loaded, finish s = s.conclude loaded) (s : Service) :
    CountsNothing s (s.endLoads finish) := by
  have hends : CountsNothing s (s.loader.underWay.foldl (endLoad finish) s) :=
    foldl_endLoad_induction hfinish
      (fun t loaded load ht => ht.trans (countsNothing_endLoad loaded t load)) (.refl s) _
  exact hends.trans ⟨rfl, rfl, rfl⟩

theorem countsNothing_await (s : Service) : CountsNothing s s.await := by
  rw [await]
  split
  · exact countsNothing_endLoads (fun s => ⟨_, rfl⟩) s
  · exact countsNothing_endLoads (fun s => ⟨_, rfl⟩) s

theorem countsNothing_get (s : Service) : CountsNothing s s.get.1 := by
  have hcall : CountsNothing s s.callLoader.1 := ⟨rfl, rfl, rfl⟩
  rw [get]
  dsimp only
  split
  · exact hcall
  · exact hcall.trans (countsNothing_await _)

theorem countsNothing_respond (s : Service) (got : Except Error Dataset) (query : List Single)
    (version : Option String) : CountsNothing s (s.respond got query version).1 := by
  cases got with
  | error e => exact .refl s
  | ok d =>
      rw [respond, answer]
      split
      · exact .refl s
      · exact ⟨rfl, rfl, rfl⟩

theorem countsNothing_handle (s : Service) (text : String) (version : Option String) :
    CountsNothing s (s.handle text version).1 := by
  rw [handle]
  split
  · exact .refl s
  · exact (countsNothing_get s).trans (countsNothing_respond _ _ _ _)

end Service

/-! ## What a request counts -/

namespace Http

open Service Text

variable {s t : Service} {r : Request}

/-- A search that is well formed is counted, whatever it comes to. -/
theorem runSearch_countsOnce (fields : SearchFields) (s : Service) :
    CountsOnce (runSearch fields s).2.status s (runSearch fields s).1 := by
  rw [runSearch]
  split
  · exact ⟨rfl, rfl, rfl⟩
  · have hhandle := countsNothing_handle s (fields.query.getD "") fields.version
    generalize s.handle (fields.query.getD "") fields.version = handled at hhandle
    obtain ⟨t, result⟩ := handled
    cases result with
    | ok hits => exact ⟨congrArg (·.count .ok) hhandle.queries,
        congrArg (·.count .ok) hhandle.durations, hhandle.bodyLimit⟩
    | error e => exact ⟨congrArg (·.count (.ofCode e.status)) hhandle.queries,
        congrArg (·.count (.ofCode e.status)) hhandle.durations, hhandle.bodyLimit⟩

theorem runSearch_status_mem (fields : SearchFields) (s : Service) :
    (runSearch fields s).2.status ∈ [200, 400, 404, 500, 503] := by
  rw [runSearch]
  split
  · exact List.mem_cons_of_mem _ (Error.status_mem (.invalidQuery .missing))
  · split
    · exact List.mem_cons_self
    · next e _ => exact List.mem_cons_of_mem _ (Error.status_mem e)

/-- Whether the fields of a search can be read: in its query string none is
there twice, nor in its form, if it has one, and that is read to its end. -/
structure IsWellFormed (bodyLimit : Nat) (r : Request) : Prop where
  url : NamesOnce r.query
  form : r.method = "POST" → hasForm r = true →
    r.body.length ≤ readLimit bodyLimit r ∧ NamesOnce r.body

/-- Whether a request is answered as a search. -/
structure IsSearch (bodyLimit : Nat) (r : Request) : Prop where
  path_eq : r.path = "/"
  method_mem : r.method ∈ ["GET", "HEAD", "POST"]
  not_statesTooMuch : statesTooMuch bodyLimit r = false

instance (bodyLimit : Nat) (r : Request) : Decidable (IsWellFormed bodyLimit r) :=
  decidable_of_iff (NamesOnce r.query ∧ (r.method = "POST" → hasForm r = true →
    r.body.length ≤ readLimit bodyLimit r ∧ NamesOnce r.body))
    ⟨fun h => ⟨h.1, h.2⟩, fun h => ⟨h.url, h.form⟩⟩

instance (bodyLimit : Nat) (r : Request) : Decidable (IsSearch bodyLimit r) :=
  decidable_of_iff (r.path = "/" ∧ r.method ∈ ["GET", "HEAD", "POST"] ∧
    statesTooMuch bodyLimit r = false)
    ⟨fun h => ⟨h.1, h.2.1, h.2.2⟩, fun h => ⟨h.path_eq, h.method_mem, h.not_statesTooMuch⟩⟩

theorem urlFields_cases (r : Request) :
    (∃ fields, urlFields r = .ok fields ∧ NamesOnce r.query) ∨
    (∃ field, urlFields r = .error (.invalidQuery (.repeatedUrlField field)) ∧
      ¬ NamesOnce r.query) := by
  rw [← exists_parse_iff, urlFields]
  cases SearchFields.parse r.query with
  | ok fields => exact .inl ⟨fields, rfl, fields, rfl⟩
  | error field =>
      refine .inr ⟨field, rfl, ?_⟩
      rintro ⟨_, ⟨⟩⟩

theorem formFields_cases (bodyLimit : Nat) (r : Request) :
    (∃ fields, formFields bodyLimit r = .ok fields ∧
      (hasForm r = true → r.body.length ≤ readLimit bodyLimit r ∧ NamesOnce r.body)) ∨
    (∃ fault, formFields bodyLimit r = .error (.invalidQuery fault) ∧ hasForm r = true ∧
      ¬ (r.body.length ≤ readLimit bodyLimit r ∧ NamesOnce r.body)) := by
  by_cases hform : hasForm r = true
  · rw [formFields, if_neg (not_not.mpr hform), ← exists_parse_iff]
    split
    · next hlong => exact .inr ⟨_, rfl, hform, fun h => Nat.not_lt.mpr h.1 hlong⟩
    · next hfits =>
        cases SearchFields.parse r.body with
        | ok fields => exact .inl ⟨fields, rfl, fun _ => ⟨Nat.not_lt.mp hfits, fields, rfl⟩⟩
        | error field =>
            refine .inr ⟨_, rfl, hform, ?_⟩
            rintro ⟨-, _, ⟨⟩⟩
  · rw [formFields, if_pos hform]
    exact .inl ⟨_, rfl, fun h => absurd h hform⟩

/-- What has been counted of a search with the answer that it got: the class of
the answer if the search is well formed, and nothing otherwise. -/
structure Records (wellFormed : Prop) (s : Service) (answer : Service × Response) : Prop where
  counted (h : wellFormed) : CountsOnce answer.2.status s answer.1
  notCounted (h : ¬ wellFormed) : answer.1 = s ∧ answer.2.status = 400
  status_mem : answer.2.status ∈ [200, 400, 404, 500, 503]

theorem records_runSearch {wellFormed : Prop} (h : wellFormed) (fields : SearchFields)
    (s : Service) : Records wellFormed s (runSearch fields s) :=
  ⟨fun _ => runSearch_countsOnce fields s, fun hnot => absurd h hnot,
    runSearch_status_mem fields s⟩

theorem records_refusal {wellFormed : Prop} (h : ¬ wellFormed) (fault : QueryFault)
    (s : Service) : Records wellFormed s (s, .ofError (.invalidQuery fault)) :=
  ⟨fun hwell => absurd hwell h, fun _ => ⟨rfl, rfl⟩,
    List.mem_cons_of_mem _ (Error.status_mem (.invalidQuery fault))⟩

theorem searchUrl_records (r : Request) (s : Service) :
    Records (NamesOnce r.query) s (searchUrl r s) := by
  rw [searchUrl]
  rcases urlFields_cases r with ⟨fields, hurl, hwell⟩ | ⟨field, hurl, hmalformed⟩
  · rw [hurl]
    exact records_runSearch hwell fields s
  · rw [hurl]
    exact records_refusal hmalformed _ s

theorem searchForm_records (r : Request) (s : Service) :
    Records (NamesOnce r.query ∧ (hasForm r = true →
      r.body.length ≤ readLimit s.bodyLimit r ∧ NamesOnce r.body)) s (searchForm r s) := by
  rw [searchForm]
  rcases urlFields_cases r with ⟨url, hurl, hwell⟩ | ⟨field, hurl, hmalformed⟩
  · rw [hurl]
    dsimp only
    rcases formFields_cases s.bodyLimit r with ⟨form, hform, hwell'⟩ | ⟨fault, hform, hsent, hnot⟩
    · rw [hform]
      exact records_runSearch ⟨hwell, hwell'⟩ _ s
    · rw [hform]
      exact records_refusal (fun h => hnot (h.2 hsent)) fault s
  · rw [hurl]
    exact records_refusal (fun h => hmalformed h.1) _ s

/-- The handler of a search, by its method. -/
theorem searchHandler?_of_mem (h : r.method ∈ ["GET", "HEAD", "POST"]) :
    ∃ handler, searchHandler? r.method = some handler ∧
      ∀ s, Records (IsWellFormed s.bodyLimit r) s (handler r s) := by
  have hiff : r.method ≠ "POST" → ∀ limit, IsWellFormed limit r ↔ NamesOnce r.query :=
    fun hne limit => ⟨fun h => h.url, fun h => ⟨h, fun hpost => absurd hpost hne⟩⟩
  rcases List.mem_cons.mp h with hget | h
  · refine ⟨searchUrl, by rw [hget]; rfl, fun s => ?_⟩
    rw [hiff (by simp [hget])]
    exact searchUrl_records r s
  rcases List.mem_cons.mp h with hhead | h
  · refine ⟨headOf searchUrl, by rw [hhead]; rfl, fun s => ?_⟩
    rw [hiff (by simp [hhead])]
    obtain ⟨hcounted, hnot, hstatus⟩ := searchUrl_records r s
    exact ⟨hcounted, hnot, hstatus⟩
  · have hpost : r.method = "POST" := List.mem_singleton.mp h
    refine ⟨searchForm, by rw [hpost]; rfl, fun s => ?_⟩
    have hwell : IsWellFormed s.bodyLimit r ↔ NamesOnce r.query ∧ (hasForm r = true →
        r.body.length ≤ readLimit s.bodyLimit r ∧ NamesOnce r.body) :=
      ⟨fun h => ⟨h.url, h.form hpost⟩, fun h => ⟨h.1, fun _ => h.2⟩⟩
    rw [hwell]
    exact searchForm_records r s

/-- A search is counted once if it is well formed, and else refused and not
counted. -/
theorem respond_records (hr : IsSearch s.bodyLimit r) :
    Records (IsWellFormed s.bodyLimit r) s (respond r s) := by
  obtain ⟨handler, hhandler, hrecords⟩ := searchHandler?_of_mem hr.method_mem
  have hmethod : r.method ≠ "OPTIONS" := by
    intro hoptions
    have hmem := hr.method_mem
    rw [hoptions] at hmem
    exact absurd hmem (by decide)
  rw [respond_of_handler hr.path_eq hhandler, guarded, if_neg hmethod,
    if_neg (by simp [hr.not_statesTooMuch])]
  obtain ⟨hcounted, hnot, hstatus⟩ := hrecords s
  exact ⟨hcounted, hnot, hstatus⟩

/-! ## All other requests -/

/-- Whether no request that a handler answers is counted as a search. -/
def Handler.CountsNothing (h : Handler) : Prop := ∀ r s, Service.CountsNothing s (h r s).1

theorem Handler.CountsNothing.headOf {h : Handler} (hh : h.CountsNothing) :
    (Http.headOf h).CountsNothing := hh

theorem Handler.CountsNothing.guarded {h : Handler} (hh : h.CountsNothing) :
    (Http.guarded h).CountsNothing := by
  intro r s
  rw [Http.guarded]
  split
  · exact .refl s
  split
  · exact .refl s
  · exact hh r s

theorem countsNothing_refuse (status : Nat) : (refuse status).CountsNothing := fun _ s => .refl s

theorem countsNothing_warmUp : Handler.CountsNothing warmUp := by
  intro r s
  have hget := countsNothing_get s
  rw [warmUp]
  generalize s.get = got at hget
  obtain ⟨t, result⟩ := got
  cases result <;> exact hget

/-- Of all paths, only one has handlers that count searches. -/
theorem countsNothing_of_mem_routes {route : Route} (hroute : route ∈ routes)
    (hpath : route.path ≠ "/") {method : String} {h : Handler}
    (hh : route.handler? method = some h) : h.CountsNothing := by
  rcases handler_cases hroute hh with ⟨hroot, -⟩ | ⟨base, hbase, hcase⟩
  · exact absurd hroot hpath
  have hcounts : ∀ base ∈ [warmUp, health, metrics], Handler.CountsNothing base :=
    List.forall_mem_cons.mpr ⟨countsNothing_warmUp, List.forall_mem_cons.mpr
      ⟨fun _ s => .refl s, List.forall_mem_singleton.mpr fun _ s => .refl s⟩⟩
  rcases hcase with rfl | rfl
  · exact hcounts _ hbase
  · exact (hcounts _ hbase).headOf

theorem method_mem_of_searchHandler? {method : String} {h : Handler}
    (hh : searchHandler? method = some h) : method ∈ ["GET", "HEAD", "POST"] := by
  rcases searchHandler?_eq_some hh with ⟨rfl, -⟩ | ⟨rfl, -⟩ | ⟨rfl, -⟩ <;> decide

theorem respond_countsNothing (hr : ¬ IsSearch s.bodyLimit r) :
    CountsNothing s (respond r s).1 := by
  by_cases hpath : r.path = "/"
  · rw [respond_root hpath]
    split
    · next h hh =>
        rw [guarded]
        split
        · exact .refl s
        split
        · exact .refl s
        · next hstated =>
            exact absurd ⟨hpath, method_mem_of_searchHandler? hh, by simpa using hstated⟩ hr
    · exact (countsNothing_refuse 405).guarded r s
  · rw [respond]
    split
    · exact (countsNothing_refuse 404).guarded r s
    · next route hfind =>
        have hmem := List.mem_of_find?_eq_some hfind
        have heq : route.path = r.path := by simpa using List.find?_some hfind
        split
        · next h hh => exact (countsNothing_of_mem_routes hmem (heq ▸ hpath) hh).guarded r s
        · exact (countsNothing_refuse 405).guarded r s

/-! ## Runs -/

/-- What goes on in a service. Requests are answered one after the other, each
from whatever state the service is in, and between them anything may happen
that counts no search. -/
inductive Serves : Service → List (Request × Response) → Service → Prop
  | done (s : Service) : Serves s [] s
  | request {s t : Service} {r : Request} {answered : List (Request × Response)}
      (h : Serves (respond r s).1 answered t) : Serves s ((r, (respond r s).2) :: answered) t
  | beside {s s' t : Service} {answered : List (Request × Response)}
      (hbeside : CountsNothing s s') (h : Serves s' answered t) : Serves s answered t

/-- Whether a request is counted as a search. -/
def IsCounted (bodyLimit : Nat) (r : Request) : Prop :=
  IsSearch bodyLimit r ∧ IsWellFormed bodyLimit r

instance (bodyLimit : Nat) (r : Request) : Decidable (IsCounted bodyLimit r) :=
  inferInstanceAs (Decidable (_ ∧ _))

/-- What one request counts. -/
theorem respond_tally (r : Request) (s : Service) :
    ∀ tally ∈ searchTallies, tally (respond r s).1.counters =
      if IsCounted s.bodyLimit r then
        (tally s.counters).count (.ofCode (respond r s).2.status)
      else tally s.counters := by
  intro tally htally
  by_cases hsearch : IsSearch s.bodyLimit r
  · have hrecords := respond_records hsearch
    by_cases hwell : IsWellFormed s.bodyLimit r
    · rw [if_pos ⟨hsearch, hwell⟩]
      exact (hrecords.counted hwell).tally_eq tally htally
    · rw [if_neg fun h => hwell h.2, (hrecords.notCounted hwell).1]
  · rw [if_neg fun h => hsearch h.1]
    exact (respond_countsNothing hsearch).tally_eq tally htally

theorem respond_bodyLimit (r : Request) (s : Service) :
    (respond r s).1.bodyLimit = s.bodyLimit := by
  by_cases hsearch : IsSearch s.bodyLimit r
  · have hrecords := respond_records hsearch
    by_cases hwell : IsWellFormed s.bodyLimit r
    · exact (hrecords.counted hwell).bodyLimit
    · rw [(hrecords.notCounted hwell).1]
  · exact (respond_countsNothing hsearch).bodyLimit

/-- A search that has been answered, well formed or not. -/
theorem Serves.search {answered : List (Request × Response)} (h : Serves s answered t) :
    ∀ a ∈ answered, IsSearch s.bodyLimit a.1 → a.2.status ∈ [200, 400, 404, 500, 503] ∧
      (¬ IsWellFormed s.bodyLimit a.1 → a.2.status = 400) := by
  induction h with
  | done => exact fun a ha => absurd ha List.not_mem_nil
  | request _ ih =>
      rw [respond_bodyLimit] at ih
      refine List.forall_mem_cons.mpr ⟨fun hsearch => ?_, ih⟩
      dsimp only at hsearch ⊢
      have hrecords := respond_records hsearch
      exact ⟨hrecords.status_mem, fun hnot => (hrecords.notCounted hnot).2⟩
  | beside hbeside _ ih =>
      rw [hbeside.bodyLimit] at ih
      exact ih

theorem Serves.total {answered : List (Request × Response)} (h : Serves s answered t) :
    ∀ tally ∈ searchTallies, (tally t.counters).total = (tally s.counters).total +
      answered.countP fun a => IsCounted s.bodyLimit a.1 := by
  intro tally htally
  induction h with
  | done => rfl
  | @request s _ r _ _ ih =>
      rw [ih, respond_bodyLimit, respond_tally r s tally htally, List.countP_cons]
      by_cases hcounted : IsCounted s.bodyLimit r
      · simp only [hcounted, if_true, Tally.total_count, decide_true]
        omega
      · simp only [hcounted, if_false, decide_false, Bool.false_eq_true, Nat.add_zero]
  | beside hbeside _ ih => rw [ih, hbeside.bodyLimit, hbeside.tally_eq tally htally]

theorem Serves.tally {answered : List (Request × Response)} (h : Serves s answered t)
    (status : Status) :
    ∀ tally ∈ searchTallies, (tally t.counters).of status = (tally s.counters).of status +
      answered.countP fun a => IsCounted s.bodyLimit a.1 ∧ status.Covers a.2.status := by
  intro tally htally
  induction h with
  | done => rfl
  | @request s _ r _ _ ih =>
      rw [ih, respond_bodyLimit, respond_tally r s tally htally, List.countP_cons]
      by_cases hcounted : IsCounted s.bodyLimit r
      · have hcovers : status.Covers (respond r s).2.status ↔ _ :=
          Status.covers_iff (respond_records hcounted.1).status_mem
        simp only [hcounted, if_true, Tally.of_count, true_and, hcovers, decide_eq_true_eq]
        omega
      · simp only [hcounted, if_false, false_and, decide_false, Bool.false_eq_true, Nat.add_zero]
  | beside hbeside _ ih => rw [ih, hbeside.bodyLimit, hbeside.tally_eq tally htally]

theorem countP_searches (bodyLimit : Nat) (answered : List (Request × Response))
    (p : Request × Response → Prop) [DecidablePred p] :
    (answered.filter fun a => IsSearch bodyLimit a.1).countP
        (fun a => IsWellFormed bodyLimit a.1 ∧ p a) =
      answered.countP fun a => IsCounted bodyLimit a.1 ∧ p a := by
  rw [List.countP_filter]
  refine List.countP_congr fun a _ => ?_
  simp only [IsCounted, Bool.and_eq_true, decide_eq_true_eq, and_comm,
    and_left_comm]

/-- Whatever else goes on in a service, each search that is well formed is
counted once under the outcome of its answer, and its duration with it. A
malformed one is answered with the status of an invalid search and not counted.
So all searches are counted exactly if all of them are well formed. -/
theorem searches_counted_iff_well_formed {answered : List (Request × Response)}
    (h : Serves s answered t) :
    let searches := answered.filter fun a => IsSearch s.bodyLimit a.1
    (∀ a ∈ searches, (∃ status : Status, status.Covers a.2.status) ∧
      (¬ IsWellFormed s.bodyLimit a.1 → a.2.status = 400)) ∧
    ∀ tally ∈ searchTallies,
      (∀ status : Status, (tally t.counters).of status = (tally s.counters).of status +
        searches.countP fun a => IsWellFormed s.bodyLimit a.1 ∧ status.Covers a.2.status) ∧
      ((tally t.counters).total = (tally s.counters).total + searches.length ↔
        ∀ a ∈ searches, IsWellFormed s.bodyLimit a.1) := by
  intro searches
  refine ⟨fun a ha => ?_, fun tally htally => ⟨fun status => ?_, ?_⟩⟩
  · obtain ⟨hmem, hsearch⟩ := List.mem_filter.mp ha
    obtain ⟨hstatus, hmalformed⟩ := h.search a hmem (of_decide_eq_true hsearch)
    exact ⟨⟨_, (Status.covers_iff hstatus).mpr rfl⟩, hmalformed⟩
  · rw [h.tally status tally htally, countP_searches]
  · have hcounted := countP_searches s.bodyLimit answered fun _ => True
    simp only [and_true] at hcounted
    rw [h.total tally htally, ← hcounted, Nat.add_left_cancel_iff, List.countP_eq_length]
    simp only [decide_eq_true_eq, searches]

/-- A search that is found, one without a query, and one with two. -/
theorem searches_counted_iff_well_formed_of_three :
    let engine : Index.Engine := ⟨2, 1, .euclidean, fun _ _ => .ok [⟨0, .zero⟩]⟩
    let s := ofDataset ⟨.empty, [], [], 0⟩ ⟨engine, ["é"], .default, none⟩ 1024 ""
    let found := respond (urlRequest "GET" "query=1") s
    let missing := respond (formRequest "" []) found.1
    let twice := respond (urlRequest "POST" "query=1&query=2") missing.1
    Serves s [(urlRequest "GET" "query=1", found.2), (formRequest "" [], missing.2),
      (urlRequest "POST" "query=1&query=2", twice.2)] twice.1 ∧
    twice.1.counters.queries.of .ok = 1 ∧ twice.1.counters.queries.of .invalid = 1 ∧
    twice.1.counters.queries.of .error = 0 := by
  intro engine s found missing twice
  have hrun : Serves s _ twice.1 := .request (.request (.request (.done _)))
  obtain ⟨-, hmain⟩ := searches_counted_iff_well_formed hrun
  obtain ⟨hof, -⟩ := hmain Counters.queries List.mem_cons_self
  refine ⟨hrun, ?_, ?_, ?_⟩
  · rw [hof]
    decide +kernel
  · rw [hof]
    decide +kernel
  · rw [hof]
    decide +kernel

/-- A search with two queries, in the query string or in a form, is answered as
an invalid one and counted nowhere. -/
theorem search_with_two_queries_not_counted :
    let engine : Index.Engine := ⟨2, 1, .euclidean, fun _ _ => .ok [⟨0, .zero⟩]⟩
    let s := ofDataset ⟨.empty, [], [], 0⟩ ⟨engine, ["é"], .default, none⟩ 1024 ""
    ∀ r ∈ [urlRequest "GET" "query=1&query=2", formRequest "" (bytes "query=1&query=2")],
      IsSearch s.bodyLimit r ∧ (respond r s).2.status = 400 ∧
      (respond r s).1.counters.queries.total = s.counters.queries.total ∧
      (respond r s).1.counters.queryDurations.total = s.counters.queryDurations.total := by
  decide +kernel

end Http

end GlyphSearch
