import GlyphSearch.Proofs.Escaping
import GlyphSearch.Proofs.NumberText
import GlyphSearch.Proofs.Printing
import GlyphSearch.Proofs.Requests

/-!
# The text of a result loses nothing

`Tells` says which documents tell of a hit: pairs of a string that unescapes to
the label and a number that rounds to the distance. A hit with a finite
distance is written as such a pair, its label by `unescape?_escape` and its
distance by `Single.text_reads_back`. As no text denotes two documents and no
pair tells of two hits, no two results have the same text.

The distances of a result that is sent are finite, since a search refuses all
others.
-/

namespace GlyphSearch.Query

open Decimal Http Json Text

/-! ## Hits -/

/-- Whether a document is a pair that tells of a hit: its string unescapes to
the label, and its number rounds to the distance. -/
def Tells (v : Value) (hit : Hit) : Prop :=
  ∃ literal number n, v = .array [.string literal, .number number] ∧
    unescape? literal = some hit.label ∧
    Numeral.ofChars? number = some n ∧ n.toSingle = hit.distance

/-- Whether all distances are finite. -/
def AllFinite (hits : List Hit) : Prop := ∀ hit ∈ hits, hit.distance.isFinite

instance (hits : List Hit) : Decidable (AllFinite hits) :=
  inferInstanceAs (Decidable (∀ hit ∈ hits, hit.distance.isFinite))

theorem Tells.unique {v : Value} {hit hit' : Hit} (h : Tells v hit) (h' : Tells v hit') :
    hit = hit' := by
  obtain ⟨literal, number, n, rfl, hlabel, hnumber, hdistance⟩ := h
  obtain ⟨literal', number', n', heq, hlabel', hnumber', hdistance'⟩ := h'
  cases heq
  cases hnumber.symm.trans hnumber'
  have hlabels : hit.label = hit'.label := Option.some.inj (hlabel.symm.trans hlabel')
  have hdistances : hit.distance = hit'.distance := hdistance.symm.trans hdistance'
  cases hit
  cases hit'
  cases hlabels
  cases hdistances
  rfl

theorem ofSingle_of_isFinite {x : Single} (h : x.isFinite) :
    Value.ofSingle x = .number x.text.toList := if_pos h

theorem tells_of_isFinite {hit : Hit} (h : hit.distance.isFinite) :
    Tells (.array [.ofText hit.label, .ofSingle hit.distance]) hit := by
  obtain ⟨-, -, n, hn, hdistance⟩ := Single.text_reads_back h
  rw [ofSingle_of_isFinite h]
  exact ⟨_, _, n, rfl, unescape?_escape hit.label, hn, hdistance⟩

theorem writable_hit {hit : Hit} (h : hit.distance.isFinite) :
    Writable (.array [.ofText hit.label, .ofSingle hit.distance]) := by
  obtain ⟨hnumber, hascii, -⟩ := Single.text_reads_back h
  rw [ofSingle_of_isFinite h]
  refine .array (List.forall_mem_cons.mpr ⟨.string (isLiteral_escape _), ?_⟩)
  exact List.forall_mem_singleton.mpr (.number hnumber hascii)

/-! ## Results -/

theorem writable_resultDocument {hits : List Hit} (h : AllFinite hits) :
    Writable (resultDocument hits) :=
  .array (List.forall_mem_map.mpr fun hit hmem => writable_hit (h hit hmem))

theorem encode_resultText {hits : List Hit} (h : AllFinite hits) :
    encode (resultText hits) = (resultDocument hits).compact :=
  encode_compactText (writable_resultDocument h)

/-- A result is written as an array that tells of its hits, in their order. -/
theorem item_resultText {hits : List Hit} (h : AllFinite hits) :
    ∃ items, Item (encode (resultText hits)) (.array items) ∧
      List.Forall₂ Tells items hits := by
  rw [encode_resultText h]
  refine ⟨_, (denotes_compact (writable_resultDocument h)).toItem, ?_⟩
  rw [List.forall₂_map_left_iff]
  exact List.forall₂_same.mpr fun hit hmem => tells_of_isFinite (h hit hmem)

theorem eq_of_forall₂_tells {items : List Value} {hits hits' : List Hit}
    (h : List.Forall₂ Tells items hits) (h' : List.Forall₂ Tells items hits') : hits = hits' := by
  induction h generalizing hits' with
  | nil =>
      cases h'
      rfl
  | cons hfirst _ ih =>
      cases h' with
      | cons hfirst' hrest' => rw [hfirst.unique hfirst', ih hrest']

theorem eq_of_resultText_eq {hits hits' : List Hit} (h : AllFinite hits) (h' : AllFinite hits')
    (heq : resultText hits = resultText hits') : hits = hits' := by
  obtain ⟨items, hitem, htells⟩ := item_resultText h
  obtain ⟨items', hitem', htells'⟩ := item_resultText h'
  rw [heq] at hitem
  cases hitem.unique hitem'
  exact eq_of_forall₂_tells htells htells'

/-! ## Searches -/

theorem allFinite_of_searchFitted {d : Dataset} {query : List Single} {k : Nat}
    {hits : List Hit} (h : searchFitted d query k = .ok hits) : AllFinite hits := by
  obtain ⟨r, hr⟩ := exists_searched d.labels (d.engine.search query k)
  have hresult := searchFitted_of_searched hr
  rw [h] at hresult
  subst hresult
  generalize d.engine.search query k = found at hr
  cases hr with
  | found hfinite hshow => exact isFinite_of_shows hshow hfinite

theorem allFinite_of_handle {s s' : Service} {text : String} {version : Option String}
    {hits : List Hit} (h : s.handle text version = (s', .ok hits)) : AllFinite hits := by
  rw [Service.handle] at h
  split at h
  · cases h
  · generalize s.get = got at h
    obtain ⟨t, got⟩ := got
    cases got with
    | error e => cases h
    | ok d =>
        simp only [Service.respond, Service.answer] at h
        split at h
        · cases h
        · exact allFinite_of_searchFitted (congrArg Prod.snd h)

/-! ## Answers -/

/-- Whether a response carries a result, with finite distances only. -/
def CarriesResult (response : Response) : Prop :=
  ∃ hits, AllFinite hits ∧ response.body = encode (resultText hits)

variable {s : Service} {r : Request}

theorem ofError_status_ne (e : Error) : (Response.ofError e).status ≠ 200 := by
  show e.status ≠ 200
  unfold Error.status
  split <;> decide

theorem carriesResult_of_runSearch {fields : SearchFields}
    (h : (runSearch fields s).2.status = 200) : CarriesResult (runSearch fields s).2 := by
  by_cases hmissing : fields.query.getD "" = ""
  · rw [runSearch_of_missing hmissing] at h
    exact absurd h (ofError_status_ne _)
  obtain ⟨query, version⟩ := fields
  cases query with
  | none => exact absurd rfl hmissing
  | some query =>
      have hne : query ≠ "" := hmissing
      rw [(runSearch_of_query hne version s).1] at h ⊢
      cases hhandled : s.handle query version with
      | mk t result =>
          rw [hhandled] at h
          cases result with
          | error e => exact absurd h (ofError_status_ne e)
          | ok hits =>
              have hfinite := allFinite_of_handle hhandled
              exact ⟨hits, hfinite, (encode_resultText hfinite).symm⟩

theorem carriesResult_of_searchUrl (h : (searchUrl r s).2.status = 200) :
    CarriesResult (searchUrl r s).2 := by
  rw [searchUrl] at h ⊢
  cases hfields : urlFields r with
  | error e =>
      rw [hfields] at h
      exact absurd h (ofError_status_ne e)
  | ok fields =>
      rw [hfields] at h
      exact carriesResult_of_runSearch h

theorem carriesResult_of_searchForm (h : (searchForm r s).2.status = 200) :
    CarriesResult (searchForm r s).2 := by
  rw [searchForm] at h ⊢
  cases hurl : urlFields r with
  | error e =>
      rw [hurl] at h
      exact absurd h (ofError_status_ne e)
  | ok url =>
      rw [hurl] at h
      dsimp only at h ⊢
      cases hform : formFields s.bodyLimit r with
      | error e =>
          rw [hform] at h
          exact absurd h (ofError_status_ne e)
      | ok form =>
          rw [hform] at h
          exact carriesResult_of_runSearch h

/-- What is answered before a handler has no body, or is a refusal. -/
theorem guarded_of_ok {h : Handler} (hstatus : (guarded h r s).2.status = 200) :
    (r.method = "OPTIONS" ∧ (guarded h r s).2.body = []) ∨
      ((h r s).2.status = 200 ∧ (guarded h r s).2.body = (h r s).2.body) := by
  rw [guarded] at hstatus ⊢
  split at hstatus
  · next hmethod =>
      rw [if_pos hmethod]
      exact .inl ⟨hmethod, rfl⟩
  next hmethod =>
  rw [if_neg hmethod]
  split at hstatus
  · cases hstatus
  next hlimit =>
  rw [if_neg hlimit]
  exact .inr ⟨hstatus, rfl⟩

theorem carriesResult_of_respond (hpath : r.path = "/") (hstatus : (respond r s).2.status = 200) :
    (r.method = "HEAD" ∨ r.method = "OPTIONS") ∧ (respond r s).2.body = [] ∨
      CarriesResult (respond r s).2 := by
  cases hsome : searchHandler? r.method with
  | none =>
      rw [respond_root hpath, hsome] at hstatus ⊢
      rcases guarded_of_ok hstatus with ⟨hmethod, hbody⟩ | ⟨hrefused, -⟩
      · exact .inl ⟨.inr hmethod, hbody⟩
      · cases hrefused
  | some h =>
      rw [respond_of_handler hpath hsome] at hstatus ⊢
      rcases guarded_of_ok hstatus with ⟨hmethod, hbody⟩ | ⟨hok, hbody⟩
      · exact .inl ⟨.inr hmethod, hbody⟩
      rw [CarriesResult, hbody]
      rcases searchHandler?_eq_some hsome with ⟨-, rfl⟩ | ⟨hmethod, rfl⟩ | ⟨-, rfl⟩
      · exact .inr (carriesResult_of_searchUrl hok)
      · exact .inl ⟨.inl hmethod, rfl⟩
      · exact .inr (carriesResult_of_searchForm hok)

/-- The text of a result with finite distances is an array that tells of its
hits in their order, so no two results have the same text. All results that are
sent have finite distances. -/
theorem result_texts_lose_nothing :
    (∀ hits, AllFinite hits → ∃ items, Item (encode (resultText hits)) (.array items) ∧
      List.Forall₂ Tells items hits) ∧
    (∀ hits hits', AllFinite hits → AllFinite hits' → resultText hits = resultText hits' →
      hits = hits') ∧
    ∀ (s : Service) (r : Request), r.path = "/" → (respond r s).2.status = 200 →
      (r.method = "HEAD" ∨ r.method = "OPTIONS") ∧ (respond r s).2.body = [] ∨
      ∃ hits items, AllFinite hits ∧ (respond r s).2.body = encode (resultText hits) ∧
        Item (respond r s).2.body (.array items) ∧ List.Forall₂ Tells items hits := by
  refine ⟨fun _ => item_resultText, fun _ _ => eq_of_resultText_eq, ?_⟩
  intro s r hpath hstatus
  refine (carriesResult_of_respond hpath hstatus).imp_right fun hcarries => ?_
  obtain ⟨hits, hfinite, hbody⟩ := hcarries
  obtain ⟨items, hitem, htells⟩ := item_resultText hfinite
  exact ⟨hits, items, hfinite, hbody, hbody ▸ hitem, htells⟩

/-- Labels that need escapes, and distances at the ends of their range. -/
theorem result_texts_lose_nothing_of_odd_hits :
    let hits : List Hit := [⟨"\"\\\n\u0001é", ⟨1⟩⟩, ⟨"", ⟨0x80000000⟩⟩, ⟨"😀", ⟨0x7f7fffff⟩⟩]
    let engine : Index.Engine := ⟨2, 1, .euclidean, fun _ _ => .ok [⟨0, ⟨1⟩⟩]⟩
    let s := Service.ofDataset ⟨.empty, [], [], 0⟩ ⟨engine, ["é"], .default, none⟩ 1024 ""
    let r := urlRequest "GET" "query=1"
    (AllFinite hits ∧ AllFinite hits.reverse ∧ r.path = "/" ∧ (respond r s).2.status = 200) ∧
    (∃ items, Item (encode (resultText hits)) (.array items) ∧ List.Forall₂ Tells items hits) ∧
    resultText hits ≠ resultText hits.reverse ∧
    ∃ hits items, AllFinite hits ∧ (respond r s).2.body = encode (resultText hits) ∧
      Item (respond r s).2.body (.array items) ∧ List.Forall₂ Tells items hits := by
  intro hits engine s r
  have hfinite : AllFinite hits := by decide
  have hreverse : AllFinite hits.reverse := by decide
  have hfields : SearchFields.parse (encode "query=1") = .ok ⟨some "1", none⟩ := by decide +kernel
  have hsends : Sends s.bodyLimit r ⟨some "1", none⟩ := (sends_urlRequest (by decide) hfields).1
  have hpath : r.path = "/" :=
    (parts_of_target (by decide : '#' ∉ "query=1".toList) rfl).1
  have hparse : parse "1" = .ok [⟨0x3f800000⟩] := by decide +kernel
  have hhandle : (s.handle "1" none).2 = .ok [⟨"é", ⟨1⟩⟩] := by
    rw [Service.handle, hparse]
    dsimp only
    rw [(Service.settled_of_published rfl).get_eq]
    rfl
  have hstatus : (respond r s).2.status = 200 := by
    rw [respond_of_sends hsends, (runSearch_of_query (by decide) none s).1, hhandle]
    rfl
  obtain ⟨htells, hdiffers, hanswer⟩ := result_texts_lose_nothing
  have hmethod : ¬ (r.method = "HEAD" ∨ r.method = "OPTIONS") := by decide
  refine ⟨⟨hfinite, hreverse, hpath, hstatus⟩, htells hits hfinite, fun heq => ?_, ?_⟩
  · exact absurd (hdiffers hits hits.reverse hfinite hreverse heq) (by decide)
  · exact (hanswer s r hpath hstatus).resolve_left fun h => hmethod h.1

end GlyphSearch.Query
