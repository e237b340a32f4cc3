import GlyphSearch.Proofs.Cascade
import GlyphSearch.Proofs.Concatenation
import GlyphSearch.Proofs.Ownership

/-!
# Zeros at the end of a query

A query that is shorter than the index has dimensions is filled up with
positive zeros. So it is all the same whether some of them are written: the
index is searched for the same components either way, and whatever index it is,
it gives the same answer. It has to be positive zeros, since an index may tell
them from negative ones.

The zeros that are written count all the same. With more of them than there is
room for, the query is too long.
-/

namespace GlyphSearch.Query

open Text

variable {query : List Single} {m dimension : Nat}

theorem padded_append_zeros (h : query.length + m ≤ dimension) :
    padded (query ++ List.replicate m .zero) dimension = padded query dimension := by
  have hrest : m + (dimension - (query.length + m)) = dimension - query.length := by omega
  rw [padded, padded, List.length_append, List.length_replicate, List.append_assoc,
    List.replicate_append_replicate, hrest]

theorem fitDimension_append_zeros (h : query.length + m ≤ dimension) :
    fitDimension (query ++ List.replicate m .zero) dimension = fitDimension query dimension := by
  have hlength : (query ++ List.replicate m Single.zero).length ≤ dimension := by
    rwa [List.length_append, List.length_replicate]
  rw [fitDimension_of_fits hlength, fitDimension_of_fits (by omega), padded_append_zeros h]

theorem readsAs_zeros {zeros : List (List Char)} (h : ∀ z ∈ zeros, parseToken z = .ok .zero) :
    List.Forall₂ ReadsAs zeros (List.replicate zeros.length .zero) := by
  induction zeros with
  | nil => exact .nil
  | cons z zeros ih =>
      exact .cons (parseToken_eq_ok_iff.mp (h z List.mem_cons_self))
        (ih fun z' hz' => h z' (List.mem_cons_of_mem z hz'))

/-- Zeros that are written behind a query are its last values. -/
theorem parse_append_zeros {text separator more : String} {zeros : List (List Char)}
    (hquery : parse text = .ok query) (hne : separator ≠ "")
    (hblank : IsBlanks separator.toList) (hmore : HasWords more.toList zeros)
    (hzeros : ∀ z ∈ zeros, parseToken z = .ok .zero) :
    parse (text ++ separator ++ more) = .ok (query ++ List.replicate zeros.length .zero) := by
  have hwords : words (text ++ separator ++ more).toList = words text.toList ++ zeros := by
    rw [String.toList_append, String.toList_append, ← hmore.words_eq]
    exact words_append (fun hnil => hne (String.toList_eq_nil_iff.mp hnil)) hblank _ _
  obtain ⟨htokens, hread⟩ := Parsed.ok_iff.mp (parse_eq_iff.mp hquery)
  rw [parse_eq_iff, hwords]
  exact .values (List.append_ne_nil_of_left_ne_nil htokens zeros)
    (List.rel_append hread (readsAs_zeros hzeros))

end GlyphSearch.Query

namespace GlyphSearch.Service

open Dataset Index Loading Query Text

variable {s : Service} {d : Dataset}

/-- A service whose dataset is there answers at once. -/
theorem handle_of_ready (hready : s.dataset? = some d) {text : String} {query : List Single}
    (hquery : parse text = .ok query) (version : Option String) :
    s.handle text version = s.get.1.answer d query version := by
  rw [handle, hquery]
  dsimp only
  rw [(settled_of_published (dataset?_eq_some.mp hready)).get_eq]
  rfl

theorem answer_append_zeros {query : List Single} {m : Nat}
    (h : query.length + m ≤ d.engine.dimension) (version : Option String) :
    s.answer d (query ++ List.replicate m .zero) version = s.answer d query version := by
  have hprepare : prepare d (query ++ List.replicate m .zero) version = prepare d query version := by
    rw [prepare, prepare, fitDimension_append_zeros h]
  rw [answer, answer, hprepare]

/-- Whatever index a loaded dataset has, zeros that are written behind a query
change nothing, neither in the answer nor in what becomes of the service, as
long as they fit. Where they do not, the query is refused for all the values
that it has, unless it is refused for its version before. -/
theorem trailing_zeros_change_no_answer (hready : s.dataset? = some d)
    {text separator more : String} {query : List Single} {zeros : List (List Char)}
    (hquery : parse text = .ok query) (hne : separator ≠ "")
    (hblank : IsBlanks separator.toList) (hmore : HasWords more.toList zeros)
    (hzeros : ∀ z ∈ zeros, parseToken z = .ok .zero) (version : Option String) :
    (query.length + zeros.length ≤ d.engine.dimension →
      s.handle (text ++ separator ++ more) version = s.handle text version) ∧
    (d.engine.dimension < query.length + zeros.length →
      (s.handle (text ++ separator ++ more) version).2 =
        if version.getD "1" = d.version then
          .error (.dimensionMismatch d.engine.dimension (query.length + zeros.length))
        else .error (.versionMismatch d.version (version.getD "1"))) := by
  have hparse := parse_append_zeros hquery hne hblank hmore hzeros
  rw [handle_of_ready hready hparse, handle_of_ready hready hquery]
  refine ⟨fun hfits => answer_append_zeros hfits version, fun hlong => ?_⟩
  have hlength : (query ++ List.replicate zeros.length Single.zero).length =
      query.length + zeros.length := by
    rw [List.length_append, List.length_replicate]
  split
  · next hversion =>
      rw [answer_of_refused]
      rw [prepare_of_version hversion, fitDimension_of_long (hlength ▸ hlong), hlength]
  · next hversion => rw [answer_of_refused (prepare_of_otherVersion hversion)]

/-- An index that knows one query only, with positive zeros in it. -/
theorem trailing_zeros_change_no_answer_of_one_query :
    let one : Single := ⟨0x3f800000⟩
    let engine : Engine := ⟨3, 1, .euclidean, fun query _ =>
      .ok (if query = [one, .zero, .zero] then [⟨0, one⟩] else [])⟩
    let d : Dataset := ⟨engine, ["a"], .default, none⟩
    let s := ofDataset ⟨.empty, [], [], 0⟩ d 1024 ""
    s.dataset? = some d ∧ parse "1" = .ok [one] ∧
      HasWords "0.0 1e-60".toList ["0.0".toList, "1e-60".toList] ∧
      (s.handle ("1" ++ "\t" ++ "0.0 1e-60") none).2 = .ok [⟨"a", one⟩] ∧
      (s.handle ("1" ++ "\t" ++ "0 +0 00.") none).2 = .error (.dimensionMismatch 3 4) := by
  intro one engine d s
  have hready : s.dataset? = some d := rfl
  have hquery : parse "1" = .ok [one] := by decide +kernel
  have htwo : HasWords "0.0 1e-60".toList ["0.0".toList, "1e-60".toList] :=
    words_eq_iff.mp (by decide)
  have hthree : HasWords "0 +0 00.".toList ["0".toList, "+0".toList, "00.".toList] :=
    words_eq_iff.mp (by decide)
  have hne : "\t" ≠ "" := by decide
  have hblank : IsBlanks "\t".toList := by decide
  obtain ⟨hsame, -⟩ := trailing_zeros_change_no_answer hready hquery hne hblank htwo
    (by decide +kernel) none
  obtain ⟨-, hlong⟩ := trailing_zeros_change_no_answer hready hquery hne hblank hthree
    (by decide +kernel) none
  refine ⟨hready, hquery, htwo, ?_, hlong (by decide)⟩
  rw [hsame (by decide), handle_of_ready hready hquery]
  rfl

end GlyphSearch.Service
