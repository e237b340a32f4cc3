import GlyphSearch.Config.Overrides
import GlyphSearch.Proofs.Lines

/-!
# What the values of variables say

A value is read by its word: what it is without the blanks around it. Numbers
and the words for yes, no and a backend have no blank in them, so the word of a
value that surrounds one of these is just that. What a value says is therefore
stated of the value itself, and each of the readers finds exactly that.
-/

namespace GlyphSearch.Text

/-! ## Words with blanks around them -/

/-- A text is a word with blanks before and behind it. -/
def Surrounds (cs word : List Char) : Prop :=
  ∃ before after, IsBlanks before ∧ IsBlanks after ∧ cs = before ++ word ++ after

theorem surrounds_trim (cs : List Char) : Surrounds cs (trim cs) := by
  obtain ⟨after, hafter, hsplit⟩ := exists_trimEnd_append (cs.dropWhile isBlank)
  refine ⟨cs.takeWhile isBlank, after, fun c hc => List.mem_takeWhile_imp hc, hafter, ?_⟩
  rw [List.append_assoc, trim, ← hsplit, List.takeWhile_append_dropWhile]

theorem Surrounds.trim_eq {cs word : List Char} (h : Surrounds cs word) (hword : IsWord word) :
    trim cs = word := by
  obtain ⟨before, after, hbefore, hafter, rfl⟩ := h
  exact trim_append (fun c hc => (List.mem_append.mp hc).elim (hbefore c) (hafter c)) hword.1
    hword.2

instance : DecidablePred IsWord := fun cs =>
  decidable_of_iff (cs ≠ [] ∧ cs.all fun c => !isBlank c) (by simp [IsWord])

theorem isBlank_of_graphic {c : Char} (hlow : 0x20 < c.toNat) (hhigh : c.toNat < 0x80) :
    isBlank c = false := by
  simp only [isBlank, Bool.or_eq_false_iff, Bool.and_eq_false_iff, decide_eq_false_iff_not]
  omega

/-- Blanks have no case. -/
theorem isBlank_of_lowerAscii {cs : List Char} {c : Char} (hc : c ∈ cs)
    (h : ∀ d ∈ (lowerAscii (String.ofList cs)).toList, isBlank d = false) : isBlank c = false := by
  by_cases hupper : 'A' ≤ c ∧ c ≤ 'Z'
  · have hlow : 65 ≤ c.toNat := hupper.1
    have hhigh : c.toNat ≤ 90 := hupper.2
    exact isBlank_of_graphic (by omega) (by omega)
  · refine h c ?_
    rw [lowerAscii, String.toList_ofList, String.toList_ofList]
    exact List.mem_map.mpr ⟨c, hc, if_neg hupper⟩

theorem isWord_of_lowerAscii {cs : List Char} (h : IsWord (lowerAscii (String.ofList cs)).toList) :
    IsWord cs := by
  refine ⟨?_, fun c hc => isBlank_of_lowerAscii hc h.2⟩
  rintro rfl
  exact h.1 rfl

end GlyphSearch.Text

namespace GlyphSearch.Config

open Storage Text

/-- A number below a limit: digits, perhaps with a plus sign, and blanks around
them. -/
def SpellsNat (limit : Nat) (value : String) (n : Nat) : Prop :=
  ∃ sign digits, Surrounds value.toList (sign ++ digits) ∧ (sign = [] ∨ sign = ['+']) ∧
    digits ≠ [] ∧ (∀ d ∈ digits, Decimal.isDigit d = true) ∧ Decimal.ofDigits digits = n ∧ n < limit

/-- One of some words, in any case and with blanks around it. -/
def SpellsOneOf (words : List String) (value : String) : Prop :=
  ∃ word, Surrounds value.toList word ∧ lowerAscii (String.ofList word) ∈ words

/-- The words for yes and no. -/
def boolWords : Bool → List String
  | true => ["1", "true", "yes", "on"]
  | false => ["0", "false", "no", "off"]

/-- The words for a backend. -/
def backendWords : Backend → List String
  | .gcs => ["gcs", "gcp"]
  | .s3 => ["s3", "aws"]
  | .azure => ["azure"]
  | .localFiles => ["local", "file"]

theorem isBlank_of_isDigit {d : Char} (h : Decimal.isDigit d = true) : isBlank d = false := by
  rw [Decimal.isDigit, Bool.and_eq_true, decide_eq_true_eq, decide_eq_true_eq] at h
  have hlow : 48 ≤ d.toNat := h.1
  have hhigh : d.toNat ≤ 57 := h.2
  exact isBlank_of_graphic (by omega) (by omega)

theorem isWord_of_digits {sign digits : List Char} (hsign : sign = [] ∨ sign = ['+'])
    (hne : digits ≠ []) (hdigits : ∀ d ∈ digits, Decimal.isDigit d = true) :
    IsWord (sign ++ digits) := by
  refine ⟨List.append_ne_nil_of_right_ne_nil sign hne, fun c hc => ?_⟩
  rcases List.mem_append.mp hc with hc | hc
  · obtain rfl | rfl := hsign
    · cases hc
    · rw [List.mem_singleton.mp hc]
      decide
  · exact isBlank_of_isDigit (hdigits c hc)

/-- What remains of a word without the plus sign that it may begin with. -/
def digitsOf : List Char → List Char
  | '+' :: rest => rest
  | cs => cs

theorem exists_sign_append (cs : List Char) :
    ∃ sign, (sign = [] ∨ sign = ['+']) ∧ cs = sign ++ digitsOf cs := by
  rw [digitsOf.eq_def]
  split
  · exact ⟨['+'], .inr rfl, rfl⟩
  · exact ⟨[], .inl rfl, rfl⟩

theorem digitsOf_append {sign digits : List Char} (hsign : sign = [] ∨ sign = ['+'])
    (hdigits : ∀ d ∈ digits, Decimal.isDigit d = true) : digitsOf (sign ++ digits) = digits := by
  obtain rfl | rfl := hsign
  · rw [List.nil_append, digitsOf.eq_def]
    split
    · cases hdigits '+' List.mem_cons_self
    · rfl
  · rfl

theorem parseNat?_eq (limit : Nat) (value : String) : parseNat? limit value =
    if digitsOf (trim value.toList) = [] ∨
        ¬ (digitsOf (trim value.toList)).all Decimal.isDigit then none
    else if Decimal.ofDigits (digitsOf (trim value.toList)) < limit then
      some (Decimal.ofDigits (digitsOf (trim value.toList)))
    else none := rfl

theorem parseNat?_eq_some_iff {limit : Nat} {value : String} {n : Nat} :
    parseNat? limit value = some n ↔ SpellsNat limit value n := by
  rw [parseNat?_eq]
  constructor
  · intro h
    split at h
    · cases h
    · next hdigits =>
        rw [not_or, not_not, List.all_eq_true] at hdigits
        split at h
        · next hlt =>
            obtain rfl := Option.some.inj h
            obtain ⟨sign, hsign, hsplit⟩ := exists_sign_append (trim value.toList)
            exact ⟨sign, _, hsplit ▸ surrounds_trim value.toList, hsign, hdigits.1, hdigits.2, rfl,
              hlt⟩
        · cases h
  · rintro ⟨sign, digits, hvalue, hsign, hne, hdigits, rfl, hlt⟩
    rw [hvalue.trim_eq (isWord_of_digits hsign hne hdigits), digitsOf_append hsign hdigits,
      if_neg (by simpa [hne] using hdigits), if_pos hlt]

theorem spellsOneOf_iff {words : List String} (hwords : ∀ word ∈ words, IsWord word.toList)
    {value : String} :
    SpellsOneOf words value ↔ lowerAscii (String.ofList (trim value.toList)) ∈ words := by
  constructor
  · rintro ⟨word, hvalue, hmem⟩
    rwa [hvalue.trim_eq (isWord_of_lowerAscii (hwords _ hmem))]
  · exact fun hmem => ⟨_, surrounds_trim value.toList, hmem⟩

theorem isWord_boolWords (b : Bool) : ∀ word ∈ boolWords b, IsWord word.toList := by
  cases b <;> decide

theorem isWord_backendWords (backend : Backend) :
    ∀ word ∈ backendWords backend, IsWord word.toList := by
  cases backend <;> decide

theorem parseBool?_eq_some_iff {value : String} {b : Bool} :
    parseBool? value = some b ↔ SpellsOneOf (boolWords b) value := by
  rw [spellsOneOf_iff (isWord_boolWords b), parseBool?]
  generalize lowerAscii (String.ofList (trim value.toList)) = word
  have hapart : word ∈ boolWords true → word ∉ boolWords false := by
    intro hmem
    simp only [boolWords, List.mem_cons, List.not_mem_nil, or_false] at hmem
    rcases hmem with rfl | rfl | rfl | rfl <;> decide
  split
  · next hyes =>
      have hmem : word ∈ boolWords true := List.contains_iff_mem.mp hyes
      cases b <;> simp [hmem, hapart hmem]
  · next hnot =>
      have hyes : word ∉ boolWords true := fun hmem => hnot (List.contains_iff_mem.mpr hmem)
      split
      · next hno =>
          have hmem : word ∈ boolWords false := List.contains_iff_mem.mp hno
          cases b <;> simp [hyes, hmem]
      · next hneither =>
          have hno : word ∉ boolWords false := fun hmem =>
            hneither (List.contains_iff_mem.mpr hmem)
          cases b <;> simp [hyes, hno]

theorem ofName?_eq_some_iff {name : String} {backend : Backend} :
    Backend.ofName? name = some backend ↔ name = backend.name := by
  unfold Backend.ofName?
  split <;> cases backend <;> simp_all [Backend.name]

theorem parse_eq_some_iff {value : String} {backend : Backend} :
    (Backend.parse value).toOption = some backend ↔ SpellsOneOf (backendWords backend) value := by
  rw [spellsOneOf_iff (isWord_backendWords backend), Backend.parse]
  generalize lowerAscii (String.ofList (trim value.toList)) = word
  split
  · cases backend <;> simp [Except.toOption, backendWords]
  · cases backend <;> simp [Except.toOption, backendWords]
  · cases backend <;> simp [Except.toOption, backendWords]
  · next hgcp haws hfile =>
      have hother : Backend.ofName? word = some backend ↔ word ∈ backendWords backend := by
        rw [ofName?_eq_some_iff]
        cases backend <;> simp_all [Backend.name, backendWords]
      rw [← hother]
      cases Backend.ofName? word <;> simp [Except.toOption]

end GlyphSearch.Config
