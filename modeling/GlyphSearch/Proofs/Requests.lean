import GlyphSearch.Http.Router
import GlyphSearch.Proofs.Cascade
import GlyphSearch.Proofs.FormFields
import Mathlib.Data.List.TakeWhile

/-!
# All ways to send a search agree

A search is sent with its fields in the query string, in a form, or with some
of them here and some there. `Sends` says which fields a request sends: each of
the two comes from the form, if it is there, and otherwise from the query
string. A request is answered by what its fields come to, and as a service
whose dataset has been loaded is up to the dataset alone, so is the answer.
-/

namespace GlyphSearch.Http

open Query Service Text

variable {s t : Service} {r : Request}

/-! ## Requests -/

/-- Whether a request is within the limits: its body is as long as it states,
and no longer than a service, or a form, may have it. -/
structure WithinLimits (bodyLimit : Nat) (r : Request) : Prop where
  stated : ∀ n, statedLength? r = some n → n = r.body.length
  body : r.body.length ≤ bodyLimit
  form : hasForm r = true → r.body.length ≤ formLimit

theorem WithinLimits.statesTooMuch {bodyLimit : Nat} (h : WithinLimits bodyLimit r) :
    statesTooMuch bodyLimit r = false := by
  rw [Http.statesTooMuch]
  cases hstated : statedLength? r with
  | none => rfl
  | some n =>
      have hbody := h.body
      rw [← h.stated n hstated] at hbody
      simpa using hbody

theorem WithinLimits.le_readLimit {bodyLimit : Nat} (h : WithinLimits bodyLimit r)
    (hform : hasForm r = true) : r.body.length ≤ readLimit bodyLimit r := by
  refine Nat.le_min.mpr ⟨Nat.le_min.mpr ⟨h.body, h.form hform⟩, ?_⟩
  cases hstated : statedLength? r with
  | none => exact h.body
  | some n => exact Nat.le_of_eq (h.stated n hstated).symm

/-- Which search a request sends. -/
inductive Sends (bodyLimit : Nat) (r : Request) : SearchFields → Prop
  | url {fields : SearchFields} (hpath : r.path = "/") (hmethod : r.method = "GET")
      (hlimits : WithinLimits bodyLimit r) (hurl : SearchFields.parse r.query = .ok fields) :
      Sends bodyLimit r fields
  | urlOnly {fields : SearchFields} (hpath : r.path = "/") (hmethod : r.method = "POST")
      (hlimits : WithinLimits bodyLimit r) (hform : hasForm r = false)
      (hurl : SearchFields.parse r.query = .ok fields) : Sends bodyLimit r fields
  | form {fields body url : SearchFields} (hpath : r.path = "/") (hmethod : r.method = "POST")
      (hlimits : WithinLimits bodyLimit r) (hform : hasForm r = true)
      (hbody : SearchFields.parse r.body = .ok body)
      (hurl : SearchFields.parse r.query = .ok url)
      (hquery : fields.query = if body.query.isSome then body.query else url.query)
      (hversion : fields.version = if body.version.isSome then body.version else url.version) :
      Sends bodyLimit r fields

/-! ## What a request comes to -/

/-- The handler of searches for a method. -/
def searchHandler? (method : String) : Option Handler :=
  (readOnly searchUrl method).or (orderOnly searchForm method)

theorem readOnly_eq_some {get h : Handler} {method : String}
    (hh : readOnly get method = some h) :
    (method = "GET" ∧ h = get) ∨ (method = "HEAD" ∧ h = headOf get) := by
  rw [readOnly.eq_def] at hh
  split at hh <;> cases hh
  · exact .inl ⟨rfl, rfl⟩
  · exact .inr ⟨rfl, rfl⟩

theorem orderOnly_eq_some {post h : Handler} {method : String}
    (hh : orderOnly post method = some h) : method = "POST" ∧ h = post := by
  rw [orderOnly.eq_def] at hh
  split at hh <;> cases hh
  exact ⟨rfl, rfl⟩

theorem searchHandler?_eq_some {method : String} {h : Handler}
    (hsome : searchHandler? method = some h) :
    (method = "GET" ∧ h = searchUrl) ∨ (method = "HEAD" ∧ h = headOf searchUrl) ∨
      (method = "POST" ∧ h = searchForm) := by
  rcases Option.or_eq_some_iff.mp hsome with hread | ⟨-, horder⟩
  · exact (readOnly_eq_some hread).imp_right .inl
  · exact .inr (.inr (orderOnly_eq_some horder))

/-- All handlers that a request may go to. -/
theorem handler_cases {route : Route} (hroute : route ∈ routes) {method : String} {h : Handler}
    (hh : route.handler? method = some h) :
    (route.path = "/" ∧ searchHandler? method = some h) ∨
      ∃ base ∈ [warmUp, health, metrics], h = base ∨ h = headOf base := by
  rcases List.mem_cons.mp hroute with rfl | hroute
  · exact .inl ⟨rfl, hh⟩
  rcases List.mem_cons.mp hroute with rfl | hroute
  · exact .inr ⟨warmUp, by simp, .inl (orderOnly_eq_some hh).2⟩
  rcases List.mem_cons.mp hroute with rfl | hroute
  · exact .inr ⟨health, by simp, (readOnly_eq_some hh).imp And.right And.right⟩
  · rcases List.mem_singleton.mp hroute with rfl
    exact .inr ⟨metrics, by simp, (readOnly_eq_some hh).imp And.right And.right⟩

theorem respond_root (hpath : r.path = "/") (s : Service) : respond r s =
    match searchHandler? r.method with
    | some h => guarded h r s
    | none => ((guarded (refuse 405) r s).1,
      (guarded (refuse 405) r s).2.withHeaders [("allow", "GET,HEAD,POST")]) := by
  rw [respond, hpath]
  rfl

theorem respond_of_handler {h : Handler} (hpath : r.path = "/")
    (hhandler : searchHandler? r.method = some h) (s : Service) :
    respond r s = guarded h r s := by
  rw [respond_root hpath, hhandler]

theorem guarded_of_withinLimits {h : Handler} (hmethod : r.method ≠ "OPTIONS")
    (hlimits : WithinLimits s.bodyLimit r) :
    guarded h r s = ((h r s).1, (h r s).2.withHeaders sharedHeaders) := by
  rw [guarded, if_neg hmethod, if_neg (by simp [hlimits.statesTooMuch])]

theorem urlFields_of_parse {fields : SearchFields}
    (h : SearchFields.parse r.query = .ok fields) : urlFields r = .ok fields := by
  rw [urlFields, h]
  rfl

theorem formFields_of_parse {bodyLimit : Nat} {fields : SearchFields}
    (hlimits : WithinLimits bodyLimit r) (hform : hasForm r = true)
    (h : SearchFields.parse r.body = .ok fields) : formFields bodyLimit r = .ok fields := by
  rw [formFields, if_neg (by simp [hform]),
    if_neg (Nat.not_lt.mpr (hlimits.le_readLimit hform)), h]
  rfl

theorem formFields_of_noForm {bodyLimit : Nat} (hform : hasForm r = false) :
    formFields bodyLimit r = .ok .empty := by
  rw [formFields, if_pos (by simp [hform])]

theorem searchForm_eq {url body : SearchFields} (hurl : urlFields r = .ok url)
    (hbody : formFields s.bodyLimit r = .ok body) :
    searchForm r s = runSearch (body.or url) s := by
  rw [searchForm, hurl]
  dsimp only
  rw [hbody]

/-- A request is answered by its fields. -/
theorem respond_of_sends {fields : SearchFields} (h : Sends s.bodyLimit r fields) :
    respond r s = ((runSearch fields s).1, (runSearch fields s).2.withHeaders sharedHeaders) := by
  cases h with
  | url hpath hmethod hlimits hurl =>
      have hhandler : searchHandler? r.method = some searchUrl := by rw [hmethod]; rfl
      rw [respond_of_handler hpath hhandler, guarded_of_withinLimits (by simp [hmethod]) hlimits,
        searchUrl, urlFields_of_parse hurl]
  | urlOnly hpath hmethod hlimits hform hurl =>
      have hhandler : searchHandler? r.method = some searchForm := by rw [hmethod]; rfl
      have hfields : SearchFields.empty.or fields = fields := rfl
      rw [respond_of_handler hpath hhandler, guarded_of_withinLimits (by simp [hmethod]) hlimits,
        searchForm_eq (urlFields_of_parse hurl) (formFields_of_noForm hform), hfields]
  | @form body url hpath hmethod hlimits hform hbody hurl hquery hversion =>
      have hhandler : searchHandler? r.method = some searchForm := by rw [hmethod]; rfl
      have hfields : body.or url = fields := by
        obtain ⟨query, version⟩ := fields
        obtain ⟨query', version'⟩ := body
        rw [SearchFields.or]
        cases query' <;> cases version' <;> simp_all
      rw [respond_of_handler hpath hhandler, guarded_of_withinLimits (by simp [hmethod]) hlimits,
        searchForm_eq (urlFields_of_parse hurl) (formFields_of_parse hlimits hform hbody), hfields]

/-! ## Answers -/

/-- How the outcome of a query is answered: with the result, or with the
wording and the status of what went wrong. -/
def answerOf : Except Error (List Hit) → Response
  | .ok hits => .json 200 (resultDocument hits)
  | .error e =>
    .json e.status (.ofFields [("error", .ofText e.message), ("status", .ofNat e.status)])

theorem runSearch_of_missing {fields : SearchFields} (h : fields.query.getD "" = "")
    (s : Service) : (runSearch fields s).2 = .ofError (.invalidQuery .missing) := by
  rw [runSearch, if_pos h]

theorem runSearch_of_query {query : String} (h : query ≠ "") (version : Option String)
    (s : Service) :
    (runSearch ⟨some query, version⟩ s).2 = answerOf (s.handle query version).2 ∧
    (runSearch ⟨some query, version⟩ s).1.loader = (s.handle query version).1.loader := by
  rw [runSearch]
  dsimp only [Option.getD_some]
  rw [if_neg h]
  generalize s.handle query version = handled
  obtain ⟨s, result⟩ := handled
  cases result with
  | ok hits => exact ⟨rfl, rfl⟩
  | error e => exact ⟨rfl, rfl⟩

theorem runSearch_congr {d : Dataset} (hs : s.loader.published = some (.ok d))
    (ht : t.loader.published = some (.ok d)) (fields : SearchFields) :
    (runSearch fields s).2 = (runSearch fields t).2 := by
  by_cases hmissing : fields.query.getD "" = ""
  · rw [runSearch_of_missing hmissing, runSearch_of_missing hmissing]
  obtain ⟨query, version⟩ := fields
  cases query with
  | none => exact absurd rfl hmissing
  | some query =>
      have hne : query ≠ "" := hmissing
      rw [(runSearch_of_query hne version s).1, (runSearch_of_query hne version t).1,
        handle_congr hs ht rfl]

/-! ## Sending a search -/

/-- A request that has its fields in the query string. -/
def urlRequest (method text : String) : Request := ⟨method, "/?" ++ text, [], []⟩

/-- A request with a form. -/
def formRequest (text : String) (body : Bytes) : Request :=
  ⟨"POST", "/?" ++ text, [("content-type", formType)], body⟩

section Sending

variable {bodyLimit : Nat} {text : String} {body : Bytes} {fields url form : SearchFields}

theorem parts_of_target (hfragment : '#' ∉ text.toList) (htarget : r.target = "/?" ++ text) :
    r.path = "/" ∧ r.query = encode text := by
  have hall : text.toList.takeWhile (· ≠ '#') = text.toList := by
    refine List.takeWhile_eq_self_iff.mpr fun c hc => decide_eq_true ?_
    rintro rfl
    exact hfragment hc
  have hparts : r.parts = (['/'], text.toList) := by
    have hlist : r.target.toList = '/' :: '?' :: text.toList := by
      rw [htarget, String.toList_append]
      rfl
    have hhost : dropHost ('/' :: '?' :: text.toList) = '/' :: '?' :: text.toList := rfl
    rw [Request.parts, hlist, hhost]
    simpa using hall
  rw [Request.path, Request.query, hparts, String.ofList_toList]
  exact ⟨rfl, rfl⟩

theorem sends_urlRequest (hfragment : '#' ∉ text.toList)
    (hurl : SearchFields.parse (encode text) = .ok fields) :
    Sends bodyLimit (urlRequest "GET" text) fields ∧
    Sends bodyLimit (urlRequest "POST" text) fields := by
  have hlimits : ∀ method, WithinLimits bodyLimit (urlRequest method text) :=
    fun method => ⟨nofun, Nat.zero_le _, nofun⟩
  have hparts : ∀ method, (urlRequest method text).path = "/" ∧
      SearchFields.parse (urlRequest method text).query = .ok fields := by
    intro method
    obtain ⟨hpath, hquery⟩ := parts_of_target (r := urlRequest method text) hfragment rfl
    rw [hquery]
    exact ⟨hpath, hurl⟩
  exact ⟨.url (hparts _).1 rfl (hlimits _) (hparts _).2,
    .urlOnly (hparts _).1 rfl (hlimits _) rfl (hparts _).2⟩

theorem sends_formRequest (hfragment : '#' ∉ text.toList)
    (hlength : body.length ≤ min bodyLimit formLimit)
    (hbody : SearchFields.parse body = .ok form)
    (hurl : SearchFields.parse (encode text) = .ok url) :
    Sends bodyLimit (formRequest text body)
      ⟨if form.query.isSome then form.query else url.query,
        if form.version.isSome then form.version else url.version⟩ := by
  obtain ⟨hpath, hquery⟩ := parts_of_target (r := formRequest text body) hfragment rfl
  have hreads : (isReadable formType && formType.isPrefixOf formType) = true := by decide +kernel
  have hform : hasForm (formRequest text body) = true := hreads
  have hstated : statedLength? (formRequest text body) = none := rfl
  have hlimits : WithinLimits bodyLimit (formRequest text body) :=
    ⟨fun n hn => by simp [hstated] at hn, Nat.le_trans hlength (Nat.min_le_left ..),
      fun _ => Nat.le_trans hlength (Nat.min_le_right ..)⟩
  rw [← hquery] at hurl
  exact .form hpath rfl hlimits hform hbody hurl rfl rfl

end Sending

/-! ## The answer -/

/-- Whatever a query and a version are, they can be spelled, and they are read
back from all spellings. A service whose dataset has been loaded answers a
search with what the query comes to, and keeps the dataset. Wherever the fields
are sent, services with the same dataset answer alike. -/
theorem all_ways_to_send_a_search_agree {d : Dataset}
    (hready : s.loader.published = some (.ok d)) :
    (∀ fields, ∃ text : String, SpellsFields (encode text) fields ∧ '#' ∉ text.toList) ∧
    (∀ form fields, SpellsFields form fields → SearchFields.parse form = .ok fields) ∧
    (∀ r query version, query ≠ "" → Sends s.bodyLimit r ⟨some query, version⟩ →
      (respond r s).1.loader.published = some (.ok d) ∧
      match (s.handle query version).2 with
      | .ok hits => (respond r s).2.status = 200 ∧
        (respond r s).2.body = (resultDocument hits).compact
      | .error e => (respond r s).2.status = e.status ∧
        (respond r s).2.body = (Json.Value.ofFields
          [("error", .ofText e.message), ("status", .ofNat e.status)]).compact) ∧
    ∀ t r r' fields, t.loader.published = some (.ok d) → Sends s.bodyLimit r fields →
      Sends t.bodyLimit r' fields → (respond r s).2 = (respond r' t).2 := by
  refine ⟨exists_spelling, fun form fields => parse_of_spells, ?_, ?_⟩
  · intro r query version hquery hsends
    obtain ⟨hresponse, hloader⟩ := runSearch_of_query hquery version s
    rw [respond_of_sends hsends, hresponse, hloader]
    refine ⟨(Reaches.later (reaches_handle s query version)).published _ hready, ?_⟩
    cases (s.handle query version).2 with
    | ok hits => exact ⟨rfl, rfl⟩
    | error e => exact ⟨rfl, rfl⟩
  · intro t r r' fields hready' hsends hsends'
    rw [respond_of_sends hsends, respond_of_sends hsends', runSearch_congr hready hready']

/-- The same search, sent in four ways. In the last one, the query of the form
comes before that of the query string. -/
theorem all_ways_to_send_a_search_agree_of_four :
    let engine : Index.Engine := ⟨2, 1, .euclidean, fun _ _ => .ok [⟨0, .zero⟩]⟩
    let d : Dataset := ⟨engine, ["é"], .default, none⟩
    let s := ofDataset ⟨.empty, [], [], 0⟩ d 1024 ""
    let get := urlRequest "GET" "query=1+0&v=1"
    let post := urlRequest "POST" "query=1+0&v=1"
    let form := formRequest "" (bytes "v=%31&query=1%200")
    let both := formRequest "query=2&v=1" (bytes "query=1+0")
    let fields : SearchFields := ⟨some "1 0", some "1"⟩
    (s.loader.published = some (.ok d) ∧ ∀ r ∈ [get, post, form, both],
      Sends s.bodyLimit r fields) ∧
    ∀ r ∈ [get, post, form, both], (respond r s).2.status = 200 ∧
      (respond r s).2.body = (resultDocument [⟨"é", .zero⟩]).compact ∧
      (respond r s).2 = (respond get s).2 := by
  intro engine d s get post form both fields
  have hready : s.loader.published = some (.ok d) := rfl
  have hurl : SearchFields.parse (encode "query=1+0&v=1") = .ok fields := by decide +kernel
  have hother : SearchFields.parse (encode "query=2&v=1") = .ok ⟨some "2", some "1"⟩ := by
    decide +kernel
  have hform : SearchFields.parse (bytes "v=%31&query=1%200") = .ok fields := by decide +kernel
  have hsome : SearchFields.parse (bytes "query=1+0") = .ok ⟨some "1 0", none⟩ := by decide +kernel
  have hnone : SearchFields.parse (encode "") = .ok .empty := by decide +kernel
  have hget : Sends s.bodyLimit get fields := (sends_urlRequest (by decide) hurl).1
  have hpost : Sends s.bodyLimit post fields := (sends_urlRequest (by decide) hurl).2
  have hsends : ∀ r ∈ [get, post, form, both], Sends s.bodyLimit r fields := by
    refine List.forall_mem_cons.mpr ⟨hget, List.forall_mem_cons.mpr ⟨hpost,
      List.forall_mem_cons.mpr ⟨?_, List.forall_mem_singleton.mpr ?_⟩⟩⟩
    · exact sends_formRequest (by decide) (by decide) hform hnone
    · exact sends_formRequest (by decide) (by decide) hsome hother
  have hparse : Query.parse "1 0" = .ok [⟨0x3f800000⟩, .zero] := by decide +kernel
  have hhandle : (s.handle "1 0" (some "1")).2 = .ok [⟨"é", .zero⟩] := by
    rw [handle, hparse]
    dsimp only
    rw [(settled_of_published hready).get_eq]
    rfl
  obtain ⟨-, -, hanswer, halike⟩ := all_ways_to_send_a_search_agree hready
  refine ⟨⟨hready, hsends⟩, fun r hr => ?_⟩
  have hresult := (hanswer r "1 0" (some "1") (by decide) (hsends r hr)).2
  rw [hhandle] at hresult
  exact ⟨hresult.1, hresult.2, halike s r get fields hready (hsends r hr) hget⟩

end GlyphSearch.Http
