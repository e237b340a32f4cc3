import GlyphSearch.Proofs.Requests

/-!
# How long a form may be

Three lengths decide whether a form is taken: the one that the request states,
the limit of the service, and the limit that every form has. A stated length
is looked at before anything else, and one beyond the limit of the service is
answered with a status of its own. The body itself is measured while it is
read, against the smallest of the three, and where it is longer the form counts
as malformed.

So the status of a body that is too long depends on whether its length was
stated, and the limit of the service is the one that is enforced only below
that of forms.
-/

namespace GlyphSearch.Http

open Service Text

variable {s : Service} {r : Request}

/-- A search that is sent as a form. A length that it states is that of its
body. -/
structure IsForm (r : Request) : Prop where
  path_eq : r.path = "/"
  method_eq : r.method = "POST"
  hasForm_eq : hasForm r = true
  stated : ∀ n, statedLength? r = some n → n = r.body.length

/-- What a form is answered where nothing is asked of its length. -/
def searchFormOfAnyLength : Handler := fun r s =>
  match urlFields r with
  | .error e => (s, .ofError e)
  | .ok url =>
    match SearchFields.parse r.body with
    | .error field => (s, .ofError (.invalidQuery (.repeatedFormField field)))
    | .ok form => runSearch (form.or url) s

/-- The error of a form that is found too long while it is read. A malformed
query string is found before. -/
def longFormError (r : Request) : Error :=
  match urlFields r with
  | .error e => e
  | .ok _ => .invalidQuery .formTooLong

/-! ## Before the form is read -/

theorem statesTooMuch_iff {limit : Nat} :
    statesTooMuch limit r = true ↔ ∃ n, statedLength? r = some n ∧ limit < n := by
  rw [statesTooMuch]
  cases statedLength? r with
  | none => simp
  | some n => simp

theorem IsForm.statesTooMuch_iff (hr : IsForm r) {limit : Nat} :
    statesTooMuch limit r = true ↔ statedLength? r ≠ none ∧ limit < r.body.length := by
  rw [Http.statesTooMuch_iff]
  constructor
  · rintro ⟨n, hstated, hlt⟩
    rw [← hr.stated n hstated]
    exact ⟨by simp [hstated], hlt⟩
  · rintro ⟨hstated, hlt⟩
    obtain ⟨n, hn⟩ := Option.ne_none_iff_exists'.mp hstated
    exact ⟨n, hn, hr.stated n hn ▸ hlt⟩

theorem IsForm.respond_eq (hr : IsForm r) (s : Service) :
    respond r s = guarded searchForm r s := by
  have hhandler : searchHandler? r.method = some searchForm := by
    rw [hr.method_eq]
    rfl
  exact respond_of_handler hr.path_eq hhandler s

theorem IsForm.respond_of_statesTooMuch (hr : IsForm r)
    (hlong : statesTooMuch s.bodyLimit r = true) :
    respond r s = (s, tooLong.withHeaders sharedHeaders) := by
  have hmethod : r.method ≠ "OPTIONS" := by simp [hr.method_eq]
  rw [hr.respond_eq, guarded, if_neg hmethod, if_pos hlong]

theorem IsForm.respond_of_not_statesTooMuch (hr : IsForm r)
    (hstated : ¬ statesTooMuch s.bodyLimit r = true) :
    respond r s =
      ((searchForm r s).1, (searchForm r s).2.withHeaders sharedHeaders) := by
  have hmethod : r.method ≠ "OPTIONS" := by simp [hr.method_eq]
  rw [hr.respond_eq, guarded, if_neg hmethod, if_neg hstated]

/-! ## While the form is read -/

/-- A form of which no more than the limits allow is stated is read as far as
both of them allow. -/
theorem IsForm.readLimit_lt_iff (hr : IsForm r) (limit : Nat) :
    readLimit limit r < r.body.length ↔ min limit formLimit < r.body.length := by
  rw [readLimit]
  cases hstated : statedLength? r with
  | none =>
      rw [Option.getD_none]
      omega
  | some n =>
      have hlength := hr.stated n hstated
      rw [Option.getD_some]
      omega

theorem IsForm.searchForm_of_long (hr : IsForm r)
    (hlong : min s.bodyLimit formLimit < r.body.length) :
    searchForm r s = (s, .ofError (longFormError r)) := by
  have hform : formFields s.bodyLimit r = .error (.invalidQuery .formTooLong) := by
    rw [formFields, if_neg (by simp [hr.hasForm_eq]),
      if_pos ((hr.readLimit_lt_iff s.bodyLimit).mpr hlong)]
  rw [searchForm, longFormError]
  cases urlFields r with
  | error e => rfl
  | ok url =>
      dsimp only
      rw [hform]

theorem IsForm.searchForm_of_fits (hr : IsForm r)
    (hfits : r.body.length ≤ min s.bodyLimit formLimit) :
    searchForm r s = searchFormOfAnyLength r s := by
  have hread : ¬ readLimit s.bodyLimit r < r.body.length := fun hlt =>
    Nat.not_lt.mpr hfits ((hr.readLimit_lt_iff s.bodyLimit).mp hlt)
  rw [searchForm, searchFormOfAnyLength]
  cases urlFields r with
  | error e => rfl
  | ok url =>
      dsimp only
      rw [formFields, if_neg (by simp [hr.hasForm_eq]), if_neg hread]
      cases SearchFields.parse r.body with
      | error field => rfl
      | ok form => rfl

/-! ## The status of a refusal -/

theorem status_longFormError (r : Request) : (longFormError r).status = 400 := by
  rw [longFormError, urlFields]
  cases SearchFields.parse r.query with
  | error field => rfl
  | ok url => rfl

/-- No error has the status of a body that states too much. -/
theorem ofError_status_ne_tooLong (e : Error) : (Response.ofError e).status ≠ tooLong.status := by
  change e.status ≠ 413
  rw [Error.status.eq_def]
  split <;> decide

theorem runSearch_status_ne_tooLong (fields : SearchFields) (s : Service) :
    (runSearch fields s).2.status ≠ tooLong.status := by
  by_cases hmissing : fields.query.getD "" = ""
  · rw [runSearch_of_missing hmissing]
    exact ofError_status_ne_tooLong _
  · obtain ⟨query, version⟩ := fields
    cases query with
    | none => exact absurd rfl hmissing
    | some query =>
        have hquery : query ≠ "" := hmissing
        rw [(runSearch_of_query hquery version s).1]
        cases (s.handle query version).2 with
        | ok hits => exact (by decide : (200 : Nat) ≠ 413)
        | error e => exact ofError_status_ne_tooLong e

theorem searchFormOfAnyLength_status_ne_tooLong (r : Request) (s : Service) :
    (searchFormOfAnyLength r s).2.status ≠ tooLong.status := by
  rw [searchFormOfAnyLength]
  cases urlFields r with
  | error e => exact ofError_status_ne_tooLong e
  | ok url =>
      dsimp only
      cases SearchFields.parse r.body with
      | error field => exact ofError_status_ne_tooLong _
      | ok form => exact runSearch_status_ne_tooLong _ s

/-! ## The answer -/

/-- A form within the limit of the service and that of forms is answered by
what is in it, whatever its length. Every other form is refused, and the
service stays as it is. It is the status 413 exactly if the form states a
length that is beyond the limit of the service; otherwise the form counts as
malformed. -/
theorem form_searched_within_limits_and_refused_beyond (hr : IsForm r) (s : Service) :
    (r.body.length ≤ min s.bodyLimit formLimit → respond r s =
      ((searchFormOfAnyLength r s).1,
        (searchFormOfAnyLength r s).2.withHeaders sharedHeaders)) ∧
    (statedLength? r ≠ none → s.bodyLimit < r.body.length →
      respond r s = (s, tooLong.withHeaders sharedHeaders)) ∧
    (min s.bodyLimit formLimit < r.body.length →
      (statedLength? r ≠ none → r.body.length ≤ s.bodyLimit) →
      respond r s = (s, (Response.ofError (longFormError r)).withHeaders sharedHeaders) ∧
      (respond r s).2.status = 400) ∧
    ((respond r s).2.status = 413 ↔ statedLength? r ≠ none ∧ s.bodyLimit < r.body.length) := by
  have hfits : r.body.length ≤ min s.bodyLimit formLimit → respond r s =
      ((searchFormOfAnyLength r s).1,
        (searchFormOfAnyLength r s).2.withHeaders sharedHeaders) := by
    intro hlength
    have hstated : ¬ statesTooMuch s.bodyLimit r = true := by
      rw [hr.statesTooMuch_iff]
      omega
    rw [hr.respond_of_not_statesTooMuch hstated, hr.searchForm_of_fits hlength]
  have hmuch : statedLength? r ≠ none → s.bodyLimit < r.body.length →
      respond r s = (s, tooLong.withHeaders sharedHeaders) := fun hstated hlt =>
    hr.respond_of_statesTooMuch (hr.statesTooMuch_iff.mpr ⟨hstated, hlt⟩)
  have hlong : min s.bodyLimit formLimit < r.body.length →
      (statedLength? r ≠ none → r.body.length ≤ s.bodyLimit) →
      respond r s = (s, (Response.ofError (longFormError r)).withHeaders sharedHeaders) ∧
      (respond r s).2.status = 400 := by
    intro hlt hle
    have hstated : ¬ statesTooMuch s.bodyLimit r = true := fun htrue => by
      obtain ⟨hsome, hgt⟩ := hr.statesTooMuch_iff.mp htrue
      exact Nat.not_lt.mpr (hle hsome) hgt
    rw [hr.respond_of_not_statesTooMuch hstated, hr.searchForm_of_long hlt]
    exact ⟨rfl, status_longFormError r⟩
  refine ⟨hfits, hmuch, hlong, fun hstatus => ?_, fun h => by rw [hmuch h.1 h.2]; rfl⟩
  by_contra hnot
  rcases Nat.lt_or_ge (min s.bodyLimit formLimit) r.body.length with hlt | hge
  · have hle : statedLength? r ≠ none → r.body.length ≤ s.bodyLimit := fun hsome =>
      Nat.not_lt.mp fun hgt => hnot ⟨hsome, hgt⟩
    rw [(hlong hlt hle).2] at hstatus
    exact absurd hstatus (by decide)
  · rw [hfits hge] at hstatus
    exact searchFormOfAnyLength_status_ne_tooLong r s hstatus

/-- Of a form with seven bytes that states its length, seven are taken, and six
are too few. -/
theorem form_searched_within_limits_and_refused_beyond_of_seven_bytes :
    let r : Request :=
      ⟨"POST", "/", [("content-type", formType), ("content-length", "7")], bytes "query=1"⟩
    let s := ofDataset ⟨.empty, [], [], 0⟩ ⟨⟨2, 1, .euclidean, fun _ _ => .ok []⟩, ["é"],
      .default, none⟩ 7 ""
    let t := { s with bodyLimit := 6 }
    IsForm r ∧ statedLength? r ≠ none ∧ r.body.length ≤ min s.bodyLimit formLimit ∧
    t.bodyLimit < r.body.length ∧
    (respond r s).2 = (searchFormOfAnyLength r s).2.withHeaders sharedHeaders ∧
    respond r t = (t, tooLong.withHeaders sharedHeaders) := by
  intro r s t
  have hstated : statedLength? r = some 7 := by decide +kernel
  have hr : IsForm r := by
    refine ⟨by decide +kernel, rfl, by decide +kernel, fun n hn => ?_⟩
    rw [hstated] at hn
    exact (Option.some.inj hn).symm
  have hsome : statedLength? r ≠ none := by simp [hstated]
  have hfits : r.body.length ≤ min s.bodyLimit formLimit := by decide
  have hbeyond : t.bodyLimit < r.body.length := by decide
  have hsearched := (form_searched_within_limits_and_refused_beyond hr s).1 hfits
  refine ⟨hr, hsome, hfits, hbeyond, by rw [hsearched], ?_⟩
  exact (form_searched_within_limits_and_refused_beyond hr t).2.1 hsome hbeyond

theorem isForm_formRequest (body : Bytes) : IsForm (formRequest "" body) := by
  have hreads : (isReadable formType && formType.isPrefixOf formType) = true := by decide +kernel
  have hfragment : '#' ∉ "".toList := by decide
  exact ⟨(parts_of_target hfragment rfl).1, rfl, hreads, nofun⟩

/-- Without a stated length a form that is too long counts as malformed, and a
form that is longer than forms may be is refused within the limit of the
service. -/
theorem long_form_malformed_and_longest_form_refused :
    let s := ofDataset ⟨.empty, [], [], 0⟩ ⟨⟨2, 1, .euclidean, fun _ _ => .ok []⟩, ["é"],
      .default, none⟩ 6 ""
    let t := { s with bodyLimit := formLimit + 1 }
    let r := formRequest "" (bytes "query=1")
    let r' := formRequest "" (List.replicate (formLimit + 1) 0)
    (IsForm r ∧ s.bodyLimit < r.body.length ∧ (respond r s).2.status = 400) ∧
    IsForm r' ∧ r'.body.length ≤ t.bodyLimit ∧
    (respond r' t).2 =
      (Response.ofError (.invalidQuery .formTooLong)).withHeaders sharedHeaders := by
  intro s t r r'
  have hstated : ∀ body limit, ¬ statesTooMuch limit (formRequest "" body) = true :=
    fun body limit => Bool.false_ne_true
  have hlength : r'.body.length = formLimit + 1 := List.length_replicate
  have hr := isForm_formRequest (bytes "query=1")
  have hr' := isForm_formRequest (List.replicate (formLimit + 1) 0)
  have hlong : min t.bodyLimit formLimit < r'.body.length := by
    rw [hlength]
    exact Nat.lt_succ_of_le (Nat.min_le_right ..)
  refine ⟨⟨hr, by decide, ?_⟩, hr', Nat.le_of_eq hlength, ?_⟩
  · rw [hr.respond_of_not_statesTooMuch (hstated _ _), hr.searchForm_of_long (by decide)]
    exact status_longFormError _
  · have hparse : SearchFields.parse r'.query = .ok .empty := by
      have hfragment : '#' ∉ "".toList := by decide
      rw [(parts_of_target (r := r') hfragment rfl).2]
      decide +kernel
    have herror : longFormError r' = .invalidQuery .formTooLong := by
      rw [longFormError, urlFields_of_parse hparse]
    rw [hr'.respond_of_not_statesTooMuch (hstated _ _), hr'.searchForm_of_long hlong, herror]

end GlyphSearch.Http
