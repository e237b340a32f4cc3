import GlyphSearch.Proofs.Tokens
import GlyphSearch.Proofs.Words

/-!
# Queries that are put together

What a query comes to is told by its words alone: the value of each, or the
fault of the first that has none. `Parsed` says so, and it respects that words
are appended, as they are when blanks are put between two texts. The only query
without words is the blank one, and only there is the query called empty, since
no word has that fault.
-/

namespace GlyphSearch.Query

open Text

/-! ## What the words of a query come to -/

inductive Parsed : List (List Char) → Except Error (List Single) → Prop
  | empty : Parsed [] (.error (.invalidQuery .empty))
  | values {tokens : List (List Char)} {values : List Single} (hne : tokens ≠ [])
      (h : List.Forall₂ ReadsAs tokens values) : Parsed tokens (.ok values)
  | refused {before after : List (List Char)} {token : List Char} {values : List Single}
      {fault : QueryFault} (hbefore : List.Forall₂ ReadsAs before values)
      (h : Sorted token (.error fault)) :
      Parsed (before ++ token :: after) (.error (.invalidQuery fault))

/-- Either all words are numbers, or one of them is the first that is none. -/
theorem exists_parsed (tokens : List (List Char)) : ∃ r, Parsed tokens r := by
  have hwords : (∃ values, List.Forall₂ ReadsAs tokens values) ∨
      ∃ before token after values fault, tokens = before ++ token :: after ∧
        List.Forall₂ ReadsAs before values ∧ Sorted token (.error fault) := by
    induction tokens with
    | nil => exact .inl ⟨[], .nil⟩
    | cons token tokens ih =>
        have hsorted := sorted_parseToken token
        cases hread : parseToken token with
        | error fault => exact .inr ⟨[], token, tokens, [], fault, rfl, .nil, hread ▸ hsorted⟩
        | ok v =>
            have hv := parseToken_eq_ok_iff.mp hread
            obtain ⟨values, h⟩ | ⟨before, bad, after, values, fault, rfl, hbefore, hbad⟩ := ih
            · exact .inl ⟨v :: values, .cons hv h⟩
            · exact .inr ⟨token :: before, bad, after, v :: values, fault, rfl,
                .cons hv hbefore, hbad⟩
  obtain ⟨values, h⟩ | ⟨before, token, after, values, fault, rfl, hbefore, hbad⟩ := hwords
  · cases tokens with
    | nil => exact ⟨_, .empty⟩
    | cons token tokens => exact ⟨_, .values (List.cons_ne_nil token tokens) h⟩
  · exact ⟨_, .refused hbefore hbad⟩

theorem parse_of_parsed {text : String} {r : Except Error (List Single)}
    (h : Parsed (words text.toList) r) : parse text = r := by
  generalize htokens : words text.toList = tokens at h
  cases h with
  | empty =>
      rw [parse, htokens]
      rfl
  | @values _ values hne h =>
      refine parse_of_ok ?_ fun hnil => ?_
      · rw [htokens]
        exact mapM_eq_ok_iff.mpr (h.imp fun _ _ => parseToken_eq_ok_iff.mpr)
      · subst hnil
        cases h
        exact hne rfl
  | @refused before after token values fault hbefore h =>
      refine parse_of_error ?_
      have hvalues : before.mapM parseToken = .ok values :=
        mapM_eq_ok_iff.mpr (hbefore.imp fun _ _ => parseToken_eq_ok_iff.mpr)
      rw [htokens, List.mapM_append, List.mapM_cons, hvalues, parseToken_of_sorted h]
      rfl

theorem parse_eq_iff {text : String} {r : Except Error (List Single)} :
    parse text = r ↔ Parsed (words text.toList) r := by
  refine ⟨fun h => ?_, parse_of_parsed⟩
  obtain ⟨r', hr'⟩ := exists_parsed (words text.toList)
  rwa [← h, parse_of_parsed hr']

section

variable {tokens more : List (List Char)} {values moreValues : List Single} {e : Error}

theorem isFinite_of_readsAs (h : List.Forall₂ ReadsAs tokens values) :
    ∀ v ∈ values, v.isFinite := by
  induction h with
  | nil => simp
  | cons hv _ ih =>
      obtain ⟨n, -, -, hfinite, -⟩ := hv
      exact List.forall_mem_cons.mpr ⟨hfinite, ih⟩

theorem Parsed.append_ok (h : Parsed tokens (.ok values)) (hmore : Parsed more (.ok moreValues)) :
    Parsed (tokens ++ more) (.ok (values ++ moreValues)) := by
  cases h with
  | values hne h =>
      cases hmore with
      | values _ hmore =>
          exact .values (List.append_ne_nil_of_left_ne_nil hne more) (List.rel_append h hmore)

theorem Parsed.append_of_error (h : Parsed tokens (.error e)) (hne : tokens ≠ []) :
    Parsed (tokens ++ more) (.error e) := by
  cases h with
  | empty => exact absurd rfl hne
  | refused hbefore hbad =>
      rw [List.append_assoc, List.cons_append]
      exact .refused hbefore hbad

theorem Parsed.append_error (h : Parsed tokens (.ok values)) (hmore : Parsed more (.error e))
    (hne : more ≠ []) : Parsed (tokens ++ more) (.error e) := by
  cases h with
  | values _ h =>
      cases hmore with
      | empty => exact absurd rfl hne
      | refused hbefore hbad =>
          rw [← List.append_assoc]
          exact .refused (List.rel_append h hbefore) hbad

theorem Parsed.ok_iff :
    Parsed tokens (.ok values) ↔ tokens ≠ [] ∧ List.Forall₂ ReadsAs tokens values := by
  constructor
  · rintro (_ | ⟨hne, h⟩)
    exact ⟨hne, h⟩
  · rintro ⟨hne, h⟩
    exact .values hne h

/-- The first word that is no number decides the fault. -/
theorem Parsed.of_error (h : Parsed tokens (.error e)) (hne : tokens ≠ []) :
    ∃ before token after values fault, tokens = before ++ token :: after ∧
      List.Forall₂ ReadsAs before values ∧ Sorted token (.error fault) ∧
      e = .invalidQuery fault := by
  cases h with
  | empty => exact absurd rfl hne
  | refused hbefore hbad => exact ⟨_, _, _, _, _, rfl, hbefore, hbad, rfl⟩

/-- No word has the fault that there are no words. -/
theorem Parsed.eq_empty_iff : Parsed tokens (.error (.invalidQuery .empty)) ↔ tokens = [] := by
  constructor
  · rintro (_ | _ | ⟨_, h⟩)
    · rfl
    · cases h
  · rintro rfl
    exact .empty

end

/-- Two texts with blanks between them are read one after the other. If both
have words, their values are put together, and the fault is that of the first
text, or that of the second where the first has none; a text without words
changes nothing.

A text is accepted if all its words are numbers, with one finite value for
each, and else the first word that is none decides the fault. The query is
called empty exactly if there are no words. -/
theorem texts_between_blanks_read_in_turn {separator : String} (hne : separator ≠ "")
    (hblank : IsBlanks separator.toList) (a b : String) :
    (¬ IsBlanks a.toList → ¬ IsBlanks b.toList →
      (∀ values moreValues, parse a = .ok values → parse b = .ok moreValues →
        parse (a ++ separator ++ b) = .ok (values ++ moreValues)) ∧
      (∀ e, parse a = .error e → parse (a ++ separator ++ b) = .error e) ∧
      ∀ values e, parse a = .ok values → parse b = .error e →
        parse (a ++ separator ++ b) = .error e) ∧
    (IsBlanks a.toList → parse (a ++ separator ++ b) = parse b) ∧
    (IsBlanks b.toList → parse (a ++ separator ++ b) = parse a) ∧
    ∀ text, ∃ tokens, HasWords text.toList tokens ∧
      (∀ values, parse text = .ok values ↔ tokens ≠ [] ∧ List.Forall₂ ReadsAs tokens values) ∧
      (∀ values, parse text = .ok values →
        values.length = tokens.length ∧ ∀ v ∈ values, v.isFinite) ∧
      (∀ e, parse text = .error e → tokens ≠ [] →
        ∃ before token after values fault, tokens = before ++ token :: after ∧
          List.Forall₂ ReadsAs before values ∧ Sorted token (.error fault) ∧
          e = .invalidQuery fault) ∧
      (parse text = .error (.invalidQuery .empty) ↔ IsBlanks text.toList) := by
  have hwords : words (a ++ separator ++ b).toList = words a.toList ++ words b.toList := by
    rw [String.toList_append, String.toList_append]
    exact words_append (fun hnil => hne (String.toList_eq_nil_iff.mp hnil)) hblank _ _
  have hwhole (r) : parse (a ++ separator ++ b) = r ↔
      Parsed (words a.toList ++ words b.toList) r := hwords ▸ parse_eq_iff
  simp only [hwhole]
  refine ⟨fun ha hb => ⟨?_, ?_, ?_⟩, fun ha => ?_, fun hb => ?_, fun text => ?_⟩
  · intro values moreValues h hmore
    exact (parse_eq_iff.mp h).append_ok (parse_eq_iff.mp hmore)
  · intro e h
    exact (parse_eq_iff.mp h).append_of_error (mt words_eq_nil_iff.mp ha)
  · intro values e h hmore
    exact (parse_eq_iff.mp h).append_error (parse_eq_iff.mp hmore) (mt words_eq_nil_iff.mp hb)
  · rw [words_eq_nil_iff.mpr ha]
    exact parse_eq_iff.mp rfl
  · rw [words_eq_nil_iff.mpr hb, List.append_nil]
    exact parse_eq_iff.mp rfl
  · refine ⟨words text.toList, hasWords_words _, fun values => ?_, fun values h => ?_, ?_, ?_⟩
    · rw [parse_eq_iff, Parsed.ok_iff]
    · obtain ⟨-, hread⟩ := Parsed.ok_iff.mp (parse_eq_iff.mp h)
      exact ⟨hread.length_eq.symm, isFinite_of_readsAs hread⟩
    · intro e h hne
      exact (parse_eq_iff.mp h).of_error hne
    · rw [parse_eq_iff, Parsed.eq_empty_iff, words_eq_nil_iff]

/-- Two texts that both have a bad word, with two spaces of different width
between them. -/
theorem texts_between_blanks_read_in_turn_of_two_bad_words :
    IsBlanks "\u2003\n".toList ∧ ¬ IsBlanks "1 x".toList ∧ ¬ IsBlanks "inf 2".toList ∧
      parse "1 x" = .error (.invalidQuery (.notANumber "x")) ∧
      parse "inf 2" = .error (.invalidQuery (.notFinite "inf")) ∧
      parse ("1 x" ++ "\u2003\n" ++ "inf 2") = .error (.invalidQuery (.notANumber "x")) := by
  have hblank : IsBlanks "\u2003\n".toList := by decide
  have ha : ¬ IsBlanks "1 x".toList := by decide
  have hb : ¬ IsBlanks "inf 2".toList := by decide
  have hparse : parse "1 x" = .error (.invalidQuery (.notANumber "x")) := by decide +kernel
  have hmore : parse "inf 2" = .error (.invalidQuery (.notFinite "inf")) := by decide +kernel
  obtain ⟨hboth, -⟩ := texts_between_blanks_read_in_turn (by decide) hblank "1 x" "inf 2"
  exact ⟨hblank, ha, hb, hparse, hmore, (hboth ha hb).2.1 _ hparse⟩

end GlyphSearch.Query
