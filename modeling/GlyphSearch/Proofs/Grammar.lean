import GlyphSearch.Json.Writing
import Mathlib.Data.Bool.AllAny
import Mathlib.Data.List.TakeWhile

/-!
# The grammar of documents

`Denotes` is the grammar of JSON: which bytes are a text of which document. It
knows of no reader, has no fuel and takes nothing from left to right.

The reader accepts exactly this grammar. That it takes nothing else is an
induction on its fuel. That it takes everything needs two more things. A
number has no closing mark, so what stands behind it must not go on with it
(`Delimits`). And two units of fuel for each byte have to be enough: a value
needs no more than its own text pays for, and the brackets around the items of
an array pay for the two steps that lead to them.

Since the reader is a function, no text denotes two documents.
-/

namespace GlyphSearch.Json

open Text

/-! ## Numbers -/

/-- One or more digits. -/
def IsDigits (text : Bytes) : Prop := text ≠ [] ∧ text.all isDigitByte

/-- Digits before the point: a zero stands alone. -/
def IsWhole (text : Bytes) : Prop :=
  IsDigits text ∧ (text.head? = some (byte '0') → text.length = 1)

def IsFraction (text : Bytes) : Prop :=
  text = [] ∨ ∃ digits, text = byte '.' :: digits ∧ IsDigits digits

def IsExponent (text : Bytes) : Prop :=
  text = [] ∨ ∃ e sign digits, text = e :: (sign ++ digits) ∧ (e = byte 'e' ∨ e = byte 'E') ∧
    (sign = [] ∨ sign = [byte '+'] ∨ sign = [byte '-']) ∧ IsDigits digits

/-- The text of a number. -/
def IsNumber (text : Bytes) : Prop :=
  ∃ sign whole fraction exponent, text = sign ++ whole ++ fraction ++ exponent ∧
    (sign = [] ∨ sign = [byte '-']) ∧ IsWhole whole ∧ IsFraction fraction ∧ IsExponent exponent

/-- What may follow a natural number for it to end there. -/
def EndsNatural (e : UInt8) : Prop :=
  isDigitByte e = false ∧ e ≠ byte '.' ∧ e ≠ byte 'e' ∧ e ≠ byte 'E'

instance : DecidablePred EndsNatural := fun _ => inferInstanceAs (Decidable (_ ∧ _))

/-- Whether what stands behind a number does not go on with it. -/
def Delimits (rest : Bytes) : Prop := ∀ e ∈ rest.head?, EndsNatural e

theorem delimits_cons {e : UInt8} (he : EndsNatural e) (rest : Bytes) : Delimits (e :: rest) := by
  intro b hb
  cases hb
  exact he

theorem takeDigits_append {digits rest : Bytes} (hdigits : digits.all isDigitByte)
    (hrest : ∀ e ∈ rest.head?, isDigitByte e = false) :
    takeDigits (digits ++ rest) = (digits, rest) := by
  have hall : ∀ b ∈ digits, isDigitByte b = true := List.all_eq_true.mp hdigits
  rw [takeDigits, List.takeWhile_append_of_pos hall, List.dropWhile_append_of_pos hall]
  cases rest with
  | nil => simp
  | cons e rest =>
      have he : isDigitByte e = false := hrest e rfl
      rw [List.takeWhile_cons_of_neg (by simp [he]), List.dropWhile_cons_of_neg (by simp [he]),
        List.append_nil]

theorem takeSomeDigits_append {digits rest : Bytes} (hdigits : IsDigits digits)
    (hrest : ∀ e ∈ rest.head?, isDigitByte e = false) :
    takeSomeDigits (digits ++ rest) = some (digits, rest) := by
  rw [takeSomeDigits, takeDigits_append hdigits.2 hrest]
  exact if_neg hdigits.1

theorem takeSomeDigits_eq_some {input digits rest : Bytes}
    (h : takeSomeDigits input = some (digits, rest)) :
    input = digits ++ rest ∧ IsDigits digits := by
  rw [takeSomeDigits, takeDigits] at h
  dsimp only at h
  split at h
  · cases h
  · next hne =>
      cases h
      refine ⟨List.takeWhile_append_dropWhile.symm, hne, ?_⟩
      exact List.all_eq_true.mpr fun b hb => List.mem_takeWhile_imp hb

theorem takeWhole_append {whole rest : Bytes} (hwhole : IsWhole whole)
    (hrest : ∀ e ∈ rest.head?, isDigitByte e = false) :
    takeWhole (whole ++ rest) = some (whole, rest) := by
  obtain ⟨hdigits, hzero⟩ := hwhole
  rw [takeWhole, takeSomeDigits_append hdigits hrest]
  refine if_neg ?_
  rintro ⟨hhead, hlong⟩
  exact absurd (hzero hhead) (Nat.ne_of_gt hlong)

theorem takeWhole_eq_some {input whole rest : Bytes} (h : takeWhole input = some (whole, rest)) :
    input = whole ++ rest ∧ IsWhole whole := by
  rw [takeWhole] at h
  cases hdigits : takeSomeDigits input with
  | none => rw [hdigits] at h; cases h
  | some taken =>
      rw [hdigits] at h
      simp only [Option.bind_eq_bind, Option.bind_some] at h
      split at h
      · cases h
      · next hlone =>
          cases h
          obtain ⟨hinput, hsome⟩ := takeSomeDigits_eq_some hdigits
          refine ⟨hinput, hsome, fun hhead => ?_⟩
          have hpos : 0 < taken.1.length := List.length_pos_iff.mpr hsome.1
          have hshort : ¬ 1 < taken.1.length := fun hlong => hlone ⟨hhead, hlong⟩
          omega

theorem takeFraction_append {fraction rest : Bytes} (hfraction : IsFraction fraction)
    (hrest : ∀ e ∈ rest.head?, isDigitByte e = false ∧ e ≠ byte '.') :
    takeFraction (fraction ++ rest) = some (fraction, rest) := by
  rcases hfraction with rfl | ⟨digits, rfl, hdigits⟩
  · cases rest with
    | nil => rfl
    | cons e rest => exact if_neg (hrest e rfl).2
  · rw [List.cons_append, takeFraction, if_pos rfl,
      takeSomeDigits_append hdigits fun e he => (hrest e he).1]
    rfl

theorem takeFraction_eq_some {input fraction rest : Bytes}
    (h : takeFraction input = some (fraction, rest)) :
    input = fraction ++ rest ∧ IsFraction fraction := by
  cases input with
  | nil =>
      cases h
      exact ⟨rfl, .inl rfl⟩
  | cons b more =>
      rw [takeFraction] at h
      split at h
      · next hpoint =>
          obtain ⟨⟨digits, after⟩, hdigits, heq⟩ := Option.map_eq_some_iff.mp h
          cases heq
          obtain ⟨rfl, hsome⟩ := takeSomeDigits_eq_some hdigits
          exact ⟨rfl, .inr ⟨digits, by rw [hpoint], hsome⟩⟩
      · cases h
        exact ⟨rfl, .inl rfl⟩

theorem takeExponent_append {exponent rest : Bytes} (hexponent : IsExponent exponent)
    (hrest : Delimits rest) : takeExponent (exponent ++ rest) = some (exponent, rest) := by
  have hnotDigit : ∀ e ∈ rest.head?, isDigitByte e = false := fun e he => (hrest e he).1
  rcases hexponent with rfl | ⟨e, sign, digits, rfl, he, hsign, hdigits⟩
  · cases rest with
    | nil => rfl
    | cons e rest =>
        obtain ⟨-, -, hlower, hupper⟩ := hrest e rfl
        exact if_neg (by simp [hlower, hupper])
  · have hsigned : ∀ c, c = byte '+' ∨ c = byte '-' →
        takeExponent (e :: ([c] ++ digits) ++ rest) = some (e :: ([c] ++ digits), rest) := by
      intro c hc
      rw [List.cons_append, List.append_assoc, takeExponent.eq_def]
      dsimp only
      rw [if_pos he]
      simp only [List.cons_append, List.nil_append, if_pos hc]
      rw [takeSomeDigits_append hdigits hnotDigit]
      rfl
    rcases hsign with rfl | rfl | rfl
    · obtain ⟨b, more, rfl⟩ := List.exists_cons_of_ne_nil hdigits.1
      have hb : isDigitByte b = true := (List.all_eq_true.mp hdigits.2) b List.mem_cons_self
      have hneSign : ¬ (b = byte '+' ∨ b = byte '-') := by
        rintro (rfl | rfl) <;> exact absurd hb (by decide)
      have htaken := takeSomeDigits_append hdigits hnotDigit
      rw [List.nil_append, List.cons_append, takeExponent.eq_def]
      dsimp only
      rw [if_pos he]
      simp only [List.cons_append, if_neg hneSign]
      rw [← List.cons_append, htaken]
      rfl
    · exact hsigned _ (.inl rfl)
    · exact hsigned _ (.inr rfl)

theorem takeExponent_eq_some {input exponent rest : Bytes}
    (h : takeExponent input = some (exponent, rest)) :
    input = exponent ++ rest ∧ IsExponent exponent := by
  cases input with
  | nil =>
      cases h
      exact ⟨rfl, .inl rfl⟩
  | cons b more =>
      rw [takeExponent.eq_def] at h
      dsimp only at h
      split at h
      · next he =>
          obtain ⟨⟨digits, after⟩, hdigits, heq⟩ := Option.map_eq_some_iff.mp h
          cases heq
          obtain ⟨hmore, hsome⟩ := takeSomeDigits_eq_some hdigits
          cases more with
          | nil => exact absurd hmore (by simp [hsome.1])
          | cons c more =>
              by_cases hc : c = byte '+' ∨ c = byte '-'
              · simp only [if_pos hc] at hmore ⊢
                refine ⟨by rw [hmore]; rfl, .inr ⟨b, [c], digits, rfl, he, ?_, hsome⟩⟩
                exact .inr (hc.imp (congrArg ([·])) (congrArg ([·])))
              · simp only [if_neg hc] at hmore ⊢
                exact ⟨by rw [hmore]; rfl, .inr ⟨b, [], digits, rfl, he, .inl rfl, hsome⟩⟩
      · cases h
        exact ⟨rfl, .inl rfl⟩

theorem head?_append_of_isFraction {fraction rest : Bytes} (hfraction : IsFraction fraction)
    {e : UInt8} (he : e ∈ (fraction ++ rest).head?) : e = byte '.' ∨ e ∈ rest.head? := by
  rcases hfraction with rfl | ⟨digits, rfl, -⟩
  · exact .inr he
  · cases he
    exact .inl rfl

theorem head?_append_of_isExponent {exponent rest : Bytes} (hexponent : IsExponent exponent)
    {e : UInt8} (he : e ∈ (exponent ++ rest).head?) :
    e = byte 'e' ∨ e = byte 'E' ∨ e ∈ rest.head? := by
  rcases hexponent with rfl | ⟨c, sign, digits, rfl, hc, -, -⟩
  · exact .inr (.inr he)
  · cases he
    exact hc.imp_right .inl

/-- Takes a number without its sign, which is there already. -/
def takeBehindSign (sign input : Bytes) : Option (Bytes × Bytes) :=
  (takeWhole input).bind fun whole => (takeFraction whole.2).bind fun fraction =>
    (takeExponent fraction.2).bind fun exponent =>
      some (sign ++ whole.1 ++ fraction.1 ++ exponent.1, exponent.2)

theorem takeNumber_eq (input : Bytes) : takeNumber input =
    if input.head? = some (byte '-') then takeBehindSign [byte '-'] input.tail
    else takeBehindSign [] input := by
  rw [takeNumber.eq_def]
  cases input with
  | nil => rfl
  | cons b rest =>
      by_cases hb : b = byte '-'
      · subst hb
        rfl
      · rw [if_neg (by simpa using hb)]
        simp only [if_neg hb]
        rfl

/-- A number is taken as a whole. -/
theorem takeNumber_append {text rest : Bytes} (htext : IsNumber text) (hrest : Delimits rest) :
    takeNumber (text ++ rest) = some (text, rest) := by
  obtain ⟨sign, whole, fraction, exponent, rfl, hsign, hwhole, hfraction, hexponent⟩ := htext
  have hbehindFraction : ∀ e ∈ (exponent ++ rest).head?, isDigitByte e = false ∧ e ≠ byte '.' := by
    intro e he
    rcases head?_append_of_isExponent hexponent he with rfl | rfl | he
    · decide
    · decide
    · exact ⟨(hrest e he).1, (hrest e he).2.1⟩
  have hbehindWhole : ∀ e ∈ (fraction ++ (exponent ++ rest)).head?, isDigitByte e = false := by
    intro e he
    rcases head?_append_of_isFraction hfraction he with rfl | he
    · decide
    · exact (hbehindFraction e he).1
  have htaken : takeBehindSign sign (whole ++ (fraction ++ (exponent ++ rest))) =
      some (sign ++ whole ++ fraction ++ exponent, rest) := by
    rw [takeBehindSign, takeWhole_append hwhole hbehindWhole, Option.bind_some,
      takeFraction_append hfraction hbehindFraction, Option.bind_some,
      takeExponent_append hexponent hrest, Option.bind_some]
  obtain ⟨b, more, rfl⟩ := List.exists_cons_of_ne_nil hwhole.1.1
  have hb : isDigitByte b = true := (List.all_eq_true.mp hwhole.1.2) b List.mem_cons_self
  have hneMinus : b ≠ byte '-' := by
    rintro rfl
    exact absurd hb (by decide)
  rw [List.append_assoc, List.append_assoc, List.append_assoc, takeNumber_eq]
  rcases hsign with rfl | rfl
  · exact (if_neg (by simpa using hneMinus)).trans htaken
  · exact (if_pos rfl).trans htaken

theorem takeNumber_eq_some {input text rest : Bytes} (h : takeNumber input = some (text, rest)) :
    input = text ++ rest ∧ IsNumber text := by
  have hbehind : ∀ {sign input : Bytes}, sign = [] ∨ sign = [byte '-'] →
      takeBehindSign sign input = some (text, rest) →
      sign ++ input = text ++ rest ∧ IsNumber text := by
    intro sign input hsign h
    obtain ⟨⟨whole, afterWhole⟩, hwhole, h⟩ := Option.bind_eq_some_iff.mp h
    obtain ⟨⟨fraction, afterFraction⟩, hfraction, h⟩ := Option.bind_eq_some_iff.mp h
    obtain ⟨⟨exponent, after⟩, hexponent, h⟩ := Option.bind_eq_some_iff.mp h
    cases h
    obtain ⟨rfl, hisWhole⟩ := takeWhole_eq_some hwhole
    obtain ⟨rfl, hisFraction⟩ := takeFraction_eq_some hfraction
    obtain ⟨rfl, hisExponent⟩ := takeExponent_eq_some hexponent
    exact ⟨by simp only [List.append_assoc],
      sign, whole, fraction, exponent, rfl, hsign, hisWhole, hisFraction, hisExponent⟩
  rw [takeNumber_eq] at h
  split at h
  · next hhead =>
      obtain ⟨tail, rfl⟩ := List.head?_eq_some_iff.mp hhead
      exact hbehind (.inr rfl) h
  · exact hbehind (.inl rfl) h

/-! ## Strings -/

/-- Whether a byte stands for itself between quotes. -/
def isPlain (b : UInt8) : Bool := b ≠ byte '"' && b ≠ byte '\\' && !(b < byte ' ')

theorem isPlain_iff {b : UInt8} :
    isPlain b = true ↔ b ≠ byte '"' ∧ b ≠ byte '\\' ∧ ¬ b < byte ' ' := by
  simp [isPlain, and_assoc]

/-- What may stand between quotes. -/
inductive IsLiteral : Bytes → Prop
  | nil : IsLiteral []
  | plain {b : UInt8} {rest : Bytes} (hb : isPlain b) (h : IsLiteral rest) : IsLiteral (b :: rest)
  | short {e : UInt8} {rest : Bytes} (he : isShortEscape e) (h : IsLiteral rest) :
      IsLiteral (byte '\\' :: e :: rest)
  | number {h₁ h₂ h₃ h₄ : UInt8} {rest : Bytes} (hn : (hexNumber? [h₁, h₂, h₃, h₄]).isSome)
      (h : IsLiteral rest) : IsLiteral (byte '\\' :: byte 'u' :: h₁ :: h₂ :: h₃ :: h₄ :: rest)

theorem isLiteral_append {bs rest : Bytes} (h : bs.all isPlain) (hrest : IsLiteral rest) :
    IsLiteral (bs ++ rest) := by
  induction bs with
  | nil => exact hrest
  | cons b bs ih =>
      rw [List.all_cons, Bool.and_eq_true] at h
      exact .plain h.1 (ih h.2)

theorem unescapeOnto_append {bs : Bytes} (h : bs.all isPlain) (done rest : Bytes) :
    unescapeOnto done (bs ++ rest) = unescapeOnto (bs.reverse ++ done) rest := by
  induction bs generalizing done with
  | nil => rfl
  | cons b bs ih =>
      rw [List.all_cons, Bool.and_eq_true, isPlain_iff] at h
      obtain ⟨⟨_, hescape, _⟩, hrest⟩ := h
      rw [List.cons_append, unescapeOnto.eq_def]
      dsimp only
      rw [if_pos hescape, ih hrest, List.reverse_cons, List.append_assoc]
      rfl

theorem takeString_append {literal : Bytes} (h : IsLiteral literal) (done rest : Bytes) :
    takeString done (literal ++ byte '"' :: rest) = some (done.reverse ++ literal, rest) := by
  induction h generalizing done with
  | nil => rw [List.nil_append, takeString.eq_def, List.append_nil]; exact if_pos rfl
  | plain hb h ih =>
      obtain ⟨hquote, hescape, hcontrol⟩ := isPlain_iff.mp hb
      rw [List.cons_append, takeString.eq_def]
      dsimp only
      rw [if_neg hquote, if_neg hcontrol, if_neg hescape, ih]
      simp
  | short he h ih =>
      rw [List.cons_append, List.cons_append, takeString.eq_def]
      dsimp only
      rw [if_neg (by decide), if_neg (by decide), if_pos rfl, if_pos he, ih]
      simp
  | number hn h ih =>
      simp only [List.cons_append]
      rw [takeString.eq_def]
      dsimp only
      rw [if_neg (by decide), if_neg (by decide), if_pos rfl, if_neg (by decide), if_pos rfl,
        if_pos hn, ih]
      simp

theorem takeString_eq_some {done input literal rest : Bytes}
    (h : takeString done input = some (literal, rest)) :
    ∃ text, IsLiteral text ∧ input = text ++ byte '"' :: rest ∧
      literal = done.reverse ++ text := by
  fun_induction takeString done input with
  | case1 => cases h
  | case2 done more =>
      cases h
      exact ⟨[], .nil, rfl, (List.append_nil _).symm⟩
  | case3 => cases h
  | case4 => cases h
  | case5 done e more hshort hquote hcontrol ih =>
      obtain ⟨text, htext, rfl, rfl⟩ := ih h
      exact ⟨_, .short hshort htext, rfl, by simp⟩
  | case6 done h₁ h₂ h₃ h₄ more hn hquote hcontrol hshort ih =>
      obtain ⟨text, htext, rfl, rfl⟩ := ih h
      exact ⟨_, .number hn htext, rfl, by simp⟩
  | case7 => cases h
  | case8 => cases h
  | case9 => cases h
  | case10 done b more hquote hcontrol hescape ih =>
      obtain ⟨text, htext, rfl, rfl⟩ := ih h
      exact ⟨_, .plain (isPlain_iff.mpr ⟨hquote, hescape, hcontrol⟩) htext, rfl, by simp⟩

/-! ## Documents -/

/-- White space between tokens. -/
def IsSpaces (text : Bytes) : Prop := text.all isSpace

instance : DecidablePred IsSpaces := fun text =>
  inferInstanceAs (Decidable (text.all isSpace = true))

mutual

/-- Which bytes are a text of which document, without white space around
it. -/
inductive Denotes : Bytes → Value → Prop
  | null : Denotes (bytes "null") .null
  | yes : Denotes (bytes "true") (.bool true)
  | no : Denotes (bytes "false") (.bool false)
  | number {text : Bytes} (h : IsNumber text) : Denotes text (.number (text.map char))
  | string {literal : Bytes} (h : IsLiteral literal) :
      Denotes (quotedLiteral literal) (.string literal)
  | noItems {spaces : Bytes} (h : IsSpaces spaces) :
      Denotes (byte '[' :: (spaces ++ [byte ']'])) (.array [])
  | array {text : Bytes} {items : List Value} (h : Items text items) :
      Denotes (byte '[' :: (text ++ [byte ']'])) (.array items)
  | noMembers {spaces : Bytes} (h : IsSpaces spaces) :
      Denotes (byte '{' :: (spaces ++ [byte '}'])) (.object [])
  | object {text : Bytes} {members : List (Bytes × Value)} (h : Members text members) :
      Denotes (byte '{' :: (text ++ [byte '}'])) (.object members)

/-- One or more documents with commas between them. -/
inductive Items : Bytes → List Value → Prop
  | last {text : Bytes} {v : Value} (h : Item text v) : Items text [v]
  | more {text rest : Bytes} {v : Value} {vs : List Value} (h : Item text v)
      (hrest : Items rest vs) : Items (text ++ byte ',' :: rest) (v :: vs)

/-- A document with white space around it. -/
inductive Item : Bytes → Value → Prop
  | intro {before text after : Bytes} {v : Value} (hbefore : IsSpaces before)
      (h : Denotes text v) (hafter : IsSpaces after) : Item (before ++ (text ++ after)) v

/-- One or more members with commas between them. -/
inductive Members : Bytes → List (Bytes × Value) → Prop
  | last {text : Bytes} {m : Bytes × Value} (h : Member text m) : Members text [m]
  | more {text rest : Bytes} {m : Bytes × Value} {ms : List (Bytes × Value)}
      (h : Member text m) (hrest : Members rest ms) :
      Members (text ++ byte ',' :: rest) (m :: ms)

/-- A key and the document that belongs to it. -/
inductive Member : Bytes → Bytes × Value → Prop
  | intro {before key between text : Bytes} {v : Value} (hbefore : IsSpaces before)
      (hkey : IsLiteral key) (hbetween : IsSpaces between) (h : Item text v) :
      Member (before ++ (quotedLiteral key ++ (between ++ byte ':' :: text))) (key, v)

end

theorem skipSpace_append {spaces : Bytes} (hspaces : spaces.all isSpace) {b : UInt8}
    (hb : isSpace b = false) (rest : Bytes) : skipSpace (spaces ++ b :: rest) = b :: rest := by
  rw [skipSpace, List.dropWhile_append_of_pos (List.all_eq_true.mp hspaces),
    List.dropWhile_cons_of_neg (by simp [hb])]

theorem isSpaces_append {text more : Bytes} (h : IsSpaces text) (hmore : IsSpaces more) :
    IsSpaces (text ++ more) := by
  rw [IsSpaces, List.all_append, Bool.and_eq_true]
  exact ⟨h, hmore⟩

theorem Item.behind {spaces text : Bytes} {v : Value} (hspaces : IsSpaces spaces)
    (h : Item text v) : Item (spaces ++ text) v := by
  cases h with
  | intro hbefore h hafter =>
      rw [← List.append_assoc]
      exact .intro (isSpaces_append hspaces hbefore) h hafter

theorem Items.behind {spaces text : Bytes} {vs : List Value} (hspaces : IsSpaces spaces)
    (h : Items text vs) : Items (spaces ++ text) vs := by
  cases h with
  | last h => exact .last (h.behind hspaces)
  | more h hrest =>
      rw [← List.append_assoc]
      exact .more (h.behind hspaces) hrest

theorem Member.behind {spaces text : Bytes} {m : Bytes × Value} (hspaces : IsSpaces spaces)
    (h : Member text m) : Member (spaces ++ text) m := by
  cases h with
  | intro hbefore hkey hbetween h =>
      rw [← List.append_assoc]
      exact .intro (isSpaces_append hspaces hbefore) hkey hbetween h

theorem Members.behind {spaces text : Bytes} {ms : List (Bytes × Value)}
    (hspaces : IsSpaces spaces) (h : Members text ms) : Members (spaces ++ text) ms := by
  cases h with
  | last h => exact .last (h.behind hspaces)
  | more h hrest =>
      rw [← List.append_assoc]
      exact .more (h.behind hspaces) hrest

theorem Denotes.toItem {text : Bytes} {v : Value} (h : Denotes text v) : Item text v := by
  have hspaces : IsSpaces [] := rfl
  simpa using Item.intro hspaces h hspaces

theorem Items.exists_denotes {text : Bytes} {vs : List Value} (h : Items text vs) :
    ∀ v ∈ vs, ∃ t, Denotes t v := by
  intro v hv
  induction vs generalizing text with
  | nil => cases hv
  | cons w vs ih =>
      cases h with
      | last h =>
          cases h with
          | intro _ h _ => exact List.mem_singleton.mp hv ▸ ⟨_, h⟩
      | more h hrest =>
          cases h with
          | intro _ h _ =>
              rcases List.mem_cons.mp hv with rfl | hv
              · exact ⟨_, h⟩
              · exact ih hrest hv

theorem Members.exists_denotes {text : Bytes} {ms : List (Bytes × Value)}
    (h : Members text ms) : ∀ m ∈ ms, ∃ t, Denotes t m.2 := by
  have hmember : ∀ {text m}, Member text m → ∃ t, Denotes t m.2 := by
    rintro _ _ (@⟨_, _, _, _, _, -, -, -, @⟨_, _, _, _, -, h, -⟩⟩)
    exact ⟨_, h⟩
  intro m hm
  induction ms generalizing text with
  | nil => cases hm
  | cons first ms ih =>
      cases h with
      | last h => exact List.mem_singleton.mp hm ▸ hmember h
      | more h hrest =>
          rcases List.mem_cons.mp hm with rfl | hm
          · exact hmember h
          · exact ih hrest hm

theorem Denotes.item {text : Bytes} {vs : List Value} (h : Denotes text (.array vs)) :
    ∀ v ∈ vs, ∃ t, Denotes t v := by
  cases h with
  | noItems => exact fun v hv => absurd hv List.not_mem_nil
  | array h => exact h.exists_denotes

theorem Denotes.member {text : Bytes} {ms : List (Bytes × Value)} (h : Denotes text (.object ms)) :
    ∀ m ∈ ms, ∃ t, Denotes t m.2 := by
  cases h with
  | noMembers => exact fun m hm => absurd hm List.not_mem_nil
  | object h => exact h.exists_denotes

/-! ## The reader takes nothing else -/

theorem skipSpace_eq {input rest : Bytes} (h : skipSpace input = rest) :
    ∃ spaces, IsSpaces spaces ∧ input = spaces ++ rest := by
  refine ⟨input.takeWhile isSpace, List.all_eq_true.mpr fun b hb => List.mem_takeWhile_imp hb, ?_⟩
  rw [← h]
  exact List.takeWhile_append_dropWhile.symm

theorem takeWord_eq_some {word : String} {input rest : Bytes}
    (h : takeWord word input = some rest) : input = bytes word ++ rest := by
  rw [takeWord] at h
  split at h
  · next hword =>
      cases h
      exact (List.take_append_drop _ input).symm.trans (congrArg (· ++ _) hword)
  · cases h

/-- What it takes to read one member, and how the reader goes on behind it. -/
theorem takeMembers_eq_some {fuel : Nat} {done : List (Bytes × Value)} {input rest : Bytes}
    {v : Value} (h : takeMembers (fuel + 1) done input = some (v, rest)) :
    ∃ before key between tail value behind e last, IsSpaces before ∧ IsLiteral key ∧
      IsSpaces between ∧ input = before ++ (quotedLiteral key ++ (between ++ byte ':' :: tail)) ∧
      takeValue fuel tail = some (value, behind) ∧ skipSpace behind = e :: last ∧
      (e = byte ',' ∧ takeMembers fuel ((key, value) :: done) last = some (v, rest) ∨
        e = byte '}' ∧ v = .object ((key, value) :: done).reverse ∧ last = rest) := by
  rw [takeMembers] at h
  cases hinput : skipSpace input with
  | nil => rw [hinput] at h; cases h
  | cons q more =>
  rw [hinput] at h
  obtain ⟨before, hbefore, rfl⟩ := skipSpace_eq hinput
  dsimp only at h
  split at h
  · cases h
  next hq =>
  cases hkey : takeString [] more with
  | none => rw [hkey] at h; cases h
  | some taken =>
  obtain ⟨key, behindKey⟩ := taken
  rw [hkey] at h
  obtain ⟨_, hliteral, rfl, rfl⟩ := takeString_eq_some hkey
  dsimp only at h
  cases hcolon : skipSpace behindKey with
  | nil => rw [hcolon] at h; cases h
  | cons b tail =>
  rw [hcolon] at h
  obtain ⟨between, hbetween, rfl⟩ := skipSpace_eq hcolon
  dsimp only at h
  split at h
  · cases h
  next hb =>
  cases hvalue : takeValue fuel tail with
  | none => rw [hvalue] at h; cases h
  | some taken =>
  obtain ⟨value, behind⟩ := taken
  rw [hvalue] at h
  dsimp only at h
  cases hbehind : skipSpace behind with
  | nil => rw [hbehind] at h; cases h
  | cons e last =>
  rw [hbehind] at h
  have htext : before ++ q :: (key ++ byte '"' :: (between ++ b :: tail)) =
      before ++ (quotedLiteral key ++ (between ++ byte ':' :: tail)) := by
    simp [quotedLiteral, not_not.mp hq, not_not.mp hb]
  refine ⟨before, key, between, tail, value, behind, e, last, hbefore, hliteral, hbetween, htext,
    hvalue, hbehind, ?_⟩
  dsimp only at h
  split at h
  · next he => exact .inl ⟨he, h⟩
  split at h
  · next he =>
      cases h
      exact .inr ⟨he, rfl, rfl⟩
  · cases h

/-- With so much fuel, what is taken is a text of what is read. -/
structure Sound (fuel : Nat) : Prop where
  value {input rest : Bytes} {v : Value} (h : takeValue fuel input = some (v, rest)) :
    ∃ spaces text, IsSpaces spaces ∧ Denotes text v ∧ input = spaces ++ (text ++ rest)
  items {done : List Value} {input rest : Bytes} {v : Value}
    (h : takeItems fuel done input = some (v, rest)) :
    ∃ text vs, Items text vs ∧ v = .array (done.reverse ++ vs) ∧ input = text ++ byte ']' :: rest
  members {done : List (Bytes × Value)} {input rest : Bytes} {v : Value}
    (h : takeMembers fuel done input = some (v, rest)) :
    ∃ text ms, Members text ms ∧ v = .object (done.reverse ++ ms) ∧
      input = text ++ byte '}' :: rest

section

variable {fuel : Nat} {input rest : Bytes} {v : Value}

theorem Sound.takeValue (hsound : Sound fuel) (h : takeValue (fuel + 1) input = some (v, rest)) :
    ∃ spaces text, IsSpaces spaces ∧ Denotes text v ∧ input = spaces ++ (text ++ rest) := by
  rw [Json.takeValue] at h
  cases hinput : skipSpace input with
  | nil => rw [hinput] at h; cases h
  | cons b more =>
      rw [hinput] at h
      obtain ⟨spaces, hspaces, rfl⟩ := skipSpace_eq hinput
      suffices ∃ text, Denotes text v ∧ b :: more = text ++ rest by
        obtain ⟨text, htext, hmore⟩ := this
        exact ⟨spaces, text, hspaces, htext, by rw [hmore]⟩
      dsimp only at h
      split at h
      · next hb =>
          obtain ⟨⟨literal, after⟩, hliteral, heq⟩ := Option.map_eq_some_iff.mp h
          cases heq
          obtain ⟨_, htext, rfl, rfl⟩ := takeString_eq_some hliteral
          exact ⟨quotedLiteral literal, .string htext, by simp [quotedLiteral, hb]⟩
      split at h
      · next hb =>
          cases hmore : skipSpace more with
          | nil => rw [hmore] at h; cases h
          | cons c tail =>
              rw [hmore] at h
              obtain ⟨inner, hinner, rfl⟩ := skipSpace_eq hmore
              dsimp only at h
              split at h
              · next hc =>
                  cases h
                  exact ⟨_, .noMembers hinner, by simp [hb, hc]⟩
              · obtain ⟨text, ms, hms, rfl, htail⟩ := hsound.members h
                exact ⟨_, .object (hms.behind hinner), by simp [hb, htail]⟩
      split at h
      · next hb =>
          cases hmore : skipSpace more with
          | nil => rw [hmore] at h; cases h
          | cons c tail =>
              rw [hmore] at h
              obtain ⟨inner, hinner, rfl⟩ := skipSpace_eq hmore
              dsimp only at h
              split at h
              · next hc =>
                  cases h
                  exact ⟨_, .noItems hinner, by simp [hb, hc]⟩
              · obtain ⟨text, vs, hvs, rfl, htail⟩ := hsound.items h
                exact ⟨_, .array (hvs.behind hinner), by simp [hb, htail]⟩
      have hword : ∀ {word : String} {u : Value},
          (takeWord word more).map (fun rest => (u, rest)) = some (v, rest) →
          v = u ∧ more = bytes word ++ rest := by
        intro word u h
        obtain ⟨after, hafter, heq⟩ := Option.map_eq_some_iff.mp h
        cases heq
        exact ⟨rfl, takeWord_eq_some hafter⟩
      split at h
      · next hb =>
          obtain ⟨rfl, rfl⟩ := hword h
          exact ⟨_, .yes, by rw [hb]; rfl⟩
      split at h
      · next hb =>
          obtain ⟨rfl, rfl⟩ := hword h
          exact ⟨_, .no, by rw [hb]; rfl⟩
      split at h
      · next hb =>
          obtain ⟨rfl, rfl⟩ := hword h
          exact ⟨_, .null, by rw [hb]; rfl⟩
      · obtain ⟨⟨text, after⟩, hnumber, heq⟩ := Option.map_eq_some_iff.mp h
        cases heq
        obtain ⟨hmore, htext⟩ := takeNumber_eq_some hnumber
        exact ⟨text, .number htext, hmore⟩

theorem Sound.item (hsound : Sound fuel) {behind more : Bytes} {e : UInt8}
    (hvalue : Json.takeValue fuel input = some (v, behind))
    (hbehind : skipSpace behind = e :: more) : ∃ text, Item text v ∧ input = text ++ e :: more := by
  obtain ⟨before, text, hbefore, htext, rfl⟩ := hsound.value hvalue
  obtain ⟨after, hafter, rfl⟩ := skipSpace_eq hbehind
  exact ⟨_, .intro hbefore htext hafter, by simp⟩

theorem Sound.takeItems (hsound : Sound fuel) {done : List Value}
    (h : takeItems (fuel + 1) done input = some (v, rest)) :
    ∃ text vs, Items text vs ∧ v = .array (done.reverse ++ vs) ∧
      input = text ++ byte ']' :: rest := by
  rw [Json.takeItems] at h
  cases hvalue : Json.takeValue fuel input with
  | none => rw [hvalue] at h; cases h
  | some taken =>
      obtain ⟨item, behind⟩ := taken
      rw [hvalue] at h
      dsimp only at h
      cases hbehind : skipSpace behind with
      | nil => rw [hbehind] at h; cases h
      | cons e more =>
          rw [hbehind] at h
          obtain ⟨text, hitem, rfl⟩ := hsound.item hvalue hbehind
          dsimp only at h
          split at h
          · next he =>
              obtain ⟨textMore, vs, hvs, rfl, rfl⟩ := hsound.items h
              exact ⟨_, item :: vs, .more hitem hvs, by simp, by simp [he]⟩
          split at h
          · next he =>
              cases h
              exact ⟨_, [item], .last hitem, by simp, by rw [he]⟩
          · cases h

theorem Sound.takeMembers (hsound : Sound fuel) {done : List (Bytes × Value)}
    (h : takeMembers (fuel + 1) done input = some (v, rest)) :
    ∃ text ms, Members text ms ∧ v = .object (done.reverse ++ ms) ∧
      input = text ++ byte '}' :: rest := by
  obtain ⟨before, key, between, tail, value, behind, e, last, hbefore, hkey, hbetween, rfl, hvalue,
    hbehind, hnext⟩ := takeMembers_eq_some h
  obtain ⟨text, hitem, rfl⟩ := hsound.item hvalue hbehind
  have hmember := Member.intro hbefore hkey hbetween hitem
  rcases hnext with ⟨rfl, hmore⟩ | ⟨rfl, rfl, rfl⟩
  · obtain ⟨textMore, ms, hms, rfl, rfl⟩ := hsound.members hmore
    exact ⟨_, (key, value) :: ms, .more hmember hms, by simp, by simp⟩
  · exact ⟨_, [(key, value)], .last hmember, by simp, by simp⟩

theorem sound (fuel : Nat) : Sound fuel := by
  induction fuel with
  | zero =>
      exact {
        value := fun h => by rw [Json.takeValue] at h; cases h
        items := fun h => by rw [Json.takeItems] at h; cases h
        members := fun h => by rw [Json.takeMembers] at h; cases h }
  | succ fuel ih => exact ⟨ih.takeValue, ih.takeItems, ih.takeMembers⟩

end

/-! ## The reader takes all of it -/

theorem endsNatural_of_isSpace {b : UInt8} (hb : isSpace b) : EndsNatural b := by
  simp only [isSpace, Bool.or_eq_true, decide_eq_true_eq] at hb
  rcases hb with ((rfl | rfl) | rfl) | rfl <;> decide

theorem delimits_of_isSpaces {spaces : Bytes} (hspaces : IsSpaces spaces) : Delimits spaces :=
  fun e he => endsNatural_of_isSpace (List.all_eq_true.mp hspaces e (List.mem_of_mem_head? he))

theorem delimits_append {spaces : Bytes} (hspaces : IsSpaces spaces) {e : UInt8}
    (he : EndsNatural e) (rest : Bytes) : Delimits (spaces ++ e :: rest) := by
  cases spaces with
  | nil => exact delimits_cons he rest
  | cons b spaces => exact fun c hc => delimits_of_isSpaces hspaces c hc

theorem IsNumber.head {text : Bytes} (h : IsNumber text) :
    ∃ b more, text = b :: more ∧ (isDigitByte b ∨ b = byte '-') := by
  obtain ⟨sign, whole, fraction, exponent, rfl, hsign, ⟨⟨hne, hall⟩, -⟩, -, -⟩ := h
  obtain ⟨b, more, rfl⟩ := List.exists_cons_of_ne_nil hne
  rcases hsign with rfl | rfl
  · exact ⟨b, _, rfl, .inl (List.all_eq_true.mp hall b List.mem_cons_self)⟩
  · exact ⟨byte '-', _, rfl, .inr rfl⟩

theorem ne_of_opensNumber {b : UInt8} (hb : isDigitByte b ∨ b = byte '-') (c : Char)
    (hc : ¬ (isDigitByte (byte c) ∨ byte c = byte '-')) : b ≠ byte c := by
  rintro rfl
  exact hc hb

/-- A document begins with a byte that is neither white space nor the end of
an array. -/
theorem Denotes.head {text : Bytes} {v : Value} (h : Denotes text v) :
    ∃ b more, text = b :: more ∧ isSpace b = false ∧ b ≠ byte ']' := by
  cases h with
  | null => exact ⟨byte 'n', bytes "ull", rfl, by decide⟩
  | yes => exact ⟨byte 't', bytes "rue", rfl, by decide⟩
  | no => exact ⟨byte 'f', bytes "alse", rfl, by decide⟩
  | number h =>
      obtain ⟨b, more, rfl, hb⟩ := h.head
      have hspace : isSpace b = false := by
        simp only [isSpace, ne_of_opensNumber hb ' ' (by decide),
          ne_of_opensNumber hb '\n' (by decide), ne_of_opensNumber hb '\t' (by decide),
          ne_of_opensNumber hb '\r' (by decide), decide_false, Bool.or_self]
      exact ⟨b, more, rfl, hspace, ne_of_opensNumber hb ']' (by decide)⟩
  | string => exact ⟨byte '"', _, rfl, by decide⟩
  | noItems => exact ⟨byte '[', _, rfl, by decide⟩
  | array => exact ⟨byte '[', _, rfl, by decide⟩
  | noMembers => exact ⟨byte '\x7b', _, rfl, by decide⟩
  | object => exact ⟨byte '\x7b', _, rfl, by decide⟩

theorem Items.tight {text : Bytes} {vs : List Value} (h : Items text vs) :
    ∃ spaces b more, text = spaces ++ b :: more ∧ IsSpaces spaces ∧ isSpace b = false ∧
      b ≠ byte ']' ∧ Items (b :: more) vs := by
  have hitem : ∀ {text v}, Item text v → ∃ spaces b more, text = spaces ++ b :: more ∧
      IsSpaces spaces ∧ isSpace b = false ∧ b ≠ byte ']' ∧ Item (b :: more) v := by
    intro text v h
    cases h with
    | @intro before text after _ hbefore h hafter =>
        obtain ⟨b, more, rfl, hb, hne⟩ := h.head
        have hnone : IsSpaces [] := rfl
        exact ⟨before, b, more ++ after, rfl, hbefore, hb, hne, .intro hnone h hafter⟩
  cases h with
  | last h =>
      obtain ⟨spaces, b, more, rfl, hspaces, hb, hne, h⟩ := hitem h
      exact ⟨spaces, b, more, rfl, hspaces, hb, hne, .last h⟩
  | @more _ rest _ _ h hrest =>
      obtain ⟨spaces, b, more, rfl, hspaces, hb, hne, h⟩ := hitem h
      exact ⟨spaces, b, more ++ byte ',' :: rest, by simp, hspaces, hb, hne, .more h hrest⟩

theorem Members.tight {text : Bytes} {ms : List (Bytes × Value)} (h : Members text ms) :
    ∃ spaces more, text = spaces ++ byte '"' :: more ∧ IsSpaces spaces ∧
      Members (byte '"' :: more) ms := by
  have hmember : ∀ {text m}, Member text m → ∃ spaces more, text = spaces ++ byte '"' :: more ∧
      IsSpaces spaces ∧ Member (byte '"' :: more) m := by
    intro text m h
    cases h with
    | @intro before key between text v hbefore hkey hbetween h =>
        have hnone : IsSpaces [] := rfl
        exact ⟨before, _, rfl, hbefore, .intro hnone hkey hbetween h⟩
  cases h with
  | last h =>
      obtain ⟨spaces, more, rfl, hspaces, h⟩ := hmember h
      exact ⟨spaces, more, rfl, hspaces, .last h⟩
  | @more _ rest _ _ h hrest =>
      obtain ⟨spaces, more, rfl, hspaces, h⟩ := hmember h
      exact ⟨spaces, more ++ byte ',' :: rest, by simp, hspaces, .more h hrest⟩

/-- With so much fuel, every text that pays for it is taken as a whole. -/
structure Complete (fuel : Nat) : Prop where
  value {spaces text rest : Bytes} {v : Value} (hspaces : IsSpaces spaces) (h : Denotes text v)
    (hrest : Delimits rest) (hfuel : 2 * text.length ≤ fuel) :
    takeValue fuel (spaces ++ (text ++ rest)) = some (v, rest)
  items {text : Bytes} {vs : List Value} (h : Items text vs)
    (hfuel : 2 * text.length + 1 ≤ fuel) (done : List Value) (rest : Bytes) :
    takeItems fuel done (text ++ byte ']' :: rest) = some (.array (done.reverse ++ vs), rest)
  members {text : Bytes} {ms : List (Bytes × Value)} (h : Members text ms)
    (hfuel : 2 * text.length + 1 ≤ fuel) (done : List (Bytes × Value)) (rest : Bytes) :
    takeMembers fuel done (text ++ byte '\x7d' :: rest) = some (.object (done.reverse ++ ms), rest)

section

variable {fuel : Nat} {text rest : Bytes}

theorem takeWord_append (word : String) (rest : Bytes) :
    takeWord word (bytes word ++ rest) = some rest := by
  rw [takeWord, List.take_left, List.drop_left]
  exact if_pos rfl

theorem takeValue_number (h : IsNumber text) {spaces : Bytes} (hspaces : IsSpaces spaces)
    (hrest : Delimits rest) (fuel : Nat) :
    takeValue (fuel + 1) (spaces ++ (text ++ rest)) = some (.number (text.map char), rest) := by
  obtain ⟨_, _, heq, hspace, -⟩ := (Denotes.number h).head
  obtain ⟨b, more, rfl, hb⟩ := h.head
  cases heq
  have hne : ∀ c, ¬ (isDigitByte (byte c) ∨ byte c = byte '-') → _ ≠ byte c :=
    ne_of_opensNumber hb
  have hnumber := takeNumber_append h hrest
  rw [List.cons_append] at hnumber
  rw [takeValue, List.cons_append, skipSpace_append hspaces hspace]
  dsimp only
  rw [if_neg (hne '"' (by decide)), if_neg (hne '\x7b' (by decide)),
    if_neg (hne '[' (by decide)), if_neg (hne 't' (by decide)), if_neg (hne 'f' (by decide)),
    if_neg (hne 'n' (by decide)), hnumber]
  rfl

theorem Complete.takeValue (hcomplete : Complete fuel) {spaces : Bytes} {v : Value}
    (hspaces : IsSpaces spaces) (h : Denotes text v) (hrest : Delimits rest)
    (hfuel : 2 * text.length ≤ fuel + 1) :
    takeValue (fuel + 1) (spaces ++ (text ++ rest)) = some (v, rest) := by
  cases h with
  | null =>
      have htext : bytes "null" = byte 'n' :: bytes "ull" := rfl
      rw [Json.takeValue, htext, List.cons_append, skipSpace_append hspaces (by decide)]
      exact congrArg (Option.map _) (takeWord_append "ull" rest)
  | yes =>
      have htext : bytes "true" = byte 't' :: bytes "rue" := rfl
      rw [Json.takeValue, htext, List.cons_append, skipSpace_append hspaces (by decide)]
      exact congrArg (Option.map _) (takeWord_append "rue" rest)
  | no =>
      have htext : bytes "false" = byte 'f' :: bytes "alse" := rfl
      rw [Json.takeValue, htext, List.cons_append, skipSpace_append hspaces (by decide)]
      exact congrArg (Option.map _) (takeWord_append "alse" rest)
  | number h => exact takeValue_number h hspaces hrest fuel
  | @string literal h =>
      have hstring := takeString_append h [] rest
      rw [quotedLiteral, List.cons_append, List.append_assoc, List.singleton_append,
        Json.takeValue, skipSpace_append hspaces (by decide)]
      dsimp only
      rw [if_pos rfl, hstring]
      rfl
  | @noItems inner hinner =>
      rw [List.cons_append, List.append_assoc, List.singleton_append, Json.takeValue,
        skipSpace_append hspaces (by decide)]
      dsimp only
      rw [if_neg (by decide), if_neg (by decide), if_pos rfl,
        skipSpace_append hinner (by decide)]
      exact if_pos rfl
  | @array _ items h =>
      obtain ⟨inner, b, more, rfl, hinner, hb, hne, h⟩ := h.tight
      -- The two brackets pay for this step and for the one to the items.
      simp only [List.length_cons, List.length_append] at hfuel
      have hitems := hcomplete.items h (by rw [List.length_cons]; omega) [] rest
      rw [List.cons_append] at hitems
      rw [List.cons_append, List.append_assoc, List.singleton_append, List.append_assoc,
        Json.takeValue, skipSpace_append hspaces (by decide)]
      dsimp only
      rw [if_neg (by decide), if_neg (by decide), if_pos rfl, List.cons_append,
        skipSpace_append hinner hb]
      exact (if_neg hne).trans hitems
  | @noMembers inner hinner =>
      rw [List.cons_append, List.append_assoc, List.singleton_append, Json.takeValue,
        skipSpace_append hspaces (by decide)]
      dsimp only
      rw [if_neg (by decide), if_pos rfl, skipSpace_append hinner (by decide)]
      exact if_pos rfl
  | @object _ members h =>
      obtain ⟨inner, more, rfl, hinner, h⟩ := h.tight
      simp only [List.length_cons, List.length_append] at hfuel
      have hmembers := hcomplete.members h (by rw [List.length_cons]; omega) [] rest
      rw [List.cons_append] at hmembers
      rw [List.cons_append, List.append_assoc, List.singleton_append, List.append_assoc,
        Json.takeValue, skipSpace_append hspaces (by decide)]
      dsimp only
      rw [if_neg (by decide), if_pos rfl, List.cons_append, skipSpace_append hinner (by decide)]
      exact (if_neg (by decide)).trans hmembers

theorem Complete.item (hcomplete : Complete fuel) {v : Value} (h : Item text v) {e : UInt8}
    (he : EndsNatural e) (hspace : isSpace e = false) (hfuel : 2 * text.length ≤ fuel)
    (rest : Bytes) : ∃ behind, Json.takeValue fuel (text ++ e :: rest) = some (v, behind) ∧
      skipSpace behind = e :: rest := by
  cases h with
  | @intro before text after _ hbefore h hafter =>
      simp only [List.length_append] at hfuel
      refine ⟨after ++ e :: rest, ?_, skipSpace_append hafter hspace rest⟩
      rw [List.append_assoc, List.append_assoc]
      exact hcomplete.value hbefore h (delimits_append hafter he rest) (by omega)

theorem Complete.takeItems (hcomplete : Complete fuel) {vs : List Value} (h : Items text vs)
    (hfuel : 2 * text.length + 1 ≤ fuel + 1) (done : List Value) (rest : Bytes) :
    takeItems (fuel + 1) done (text ++ byte ']' :: rest) =
      some (.array (done.reverse ++ vs), rest) := by
  cases h with
  | last h =>
      obtain ⟨behind, hvalue, hbehind⟩ :=
        hcomplete.item h (e := byte ']') (by decide) (by decide) (by omega) rest
      rw [Json.takeItems, hvalue]
      dsimp only
      rw [hbehind]
      dsimp only
      rw [if_neg (by decide), if_pos rfl, List.reverse_cons]
  | @more text textMore v vs h hmore =>
      simp only [List.length_append, List.length_cons] at hfuel
      obtain ⟨behind, hvalue, hbehind⟩ :=
        hcomplete.item h (e := byte ',') (by decide) (by decide) (by omega)
          (textMore ++ byte ']' :: rest)
      rw [List.append_assoc, List.cons_append, Json.takeItems, hvalue]
      dsimp only
      rw [hbehind]
      dsimp only
      rw [if_pos rfl, hcomplete.items hmore (by omega), List.reverse_cons, List.append_assoc,
        List.singleton_append]

theorem Complete.member (hcomplete : Complete fuel) {m : Bytes × Value} (h : Member text m)
    {e : UInt8} (he : EndsNatural e) (hspace : isSpace e = false) (hfuel : 2 * text.length ≤ fuel)
    (done : List (Bytes × Value)) (rest : Bytes) :
    takeMembers (fuel + 1) done (text ++ e :: rest) =
      if e = byte ',' then takeMembers fuel (m :: done) rest
      else if e = byte '\x7d' then some (.object (m :: done).reverse, rest)
      else none := by
  cases h with
  | @intro before key between text v hbefore hkey hbetween h =>
      simp only [List.length_append, List.length_cons] at hfuel
      obtain ⟨behind, hvalue, hbehind⟩ := hcomplete.item h he hspace (by omega) rest
      simp only [quotedLiteral, List.append_assoc, List.cons_append, List.nil_append]
      rw [Json.takeMembers, skipSpace_append hbefore (by decide)]
      dsimp only
      rw [if_neg (by simp), takeString_append hkey]
      dsimp only
      rw [skipSpace_append hbetween (by decide)]
      dsimp only
      rw [if_neg (by simp), hvalue]
      dsimp only
      rw [hbehind]
      rfl

theorem Complete.takeMembers (hcomplete : Complete fuel) {ms : List (Bytes × Value)}
    (h : Members text ms) (hfuel : 2 * text.length + 1 ≤ fuel + 1)
    (done : List (Bytes × Value)) (rest : Bytes) :
    takeMembers (fuel + 1) done (text ++ byte '\x7d' :: rest) =
      some (.object (done.reverse ++ ms), rest) := by
  cases h with
  | last h =>
      rw [hcomplete.member h (e := byte '\x7d') (by decide) (by decide) (by omega),
        if_neg (by decide), if_pos rfl, List.reverse_cons]
  | @more text textMore m ms h hmore =>
      simp only [List.length_append, List.length_cons] at hfuel
      rw [List.append_assoc, List.cons_append,
        hcomplete.member h (e := byte ',') (by decide) (by decide) (by omega), if_pos rfl,
        hcomplete.members hmore (by omega), List.reverse_cons, List.append_assoc,
        List.singleton_append]

theorem complete (fuel : Nat) : Complete fuel := by
  induction fuel with
  | zero =>
      refine ⟨fun _ h _ hfuel => ?_, fun _ hfuel => ?_, fun _ hfuel => ?_⟩
      · obtain ⟨b, more, rfl, -⟩ := h.head
        rw [List.length_cons] at hfuel
        omega
      · omega
      · omega
  | succ fuel ih => exact ⟨ih.takeValue, ih.takeItems, ih.takeMembers⟩

end

/-! ## Whole documents -/

/-- The reader takes exactly the texts of the grammar. -/
theorem ofBytes?_eq_some_iff {input : Bytes} {v : Value} :
    Value.ofBytes? input = some v ↔ Item input v := by
  constructor
  · intro h
    obtain ⟨⟨value, behind⟩, hvalue, h⟩ := Option.bind_eq_some_iff.mp h
    dsimp only at h
    split at h
    · next hbehind =>
        cases h
        obtain ⟨before, text, hbefore, htext, rfl⟩ := (sound _).value hvalue
        obtain ⟨after, hafter, rfl⟩ := skipSpace_eq hbehind
        rw [List.append_nil]
        exact .intro hbefore htext hafter
    · cases h
  · intro h
    cases h with
    | @intro before text after _ hbefore h hafter =>
        have hspaces : skipSpace after = [] :=
          List.dropWhile_eq_nil_iff.mpr (List.all_eq_true.mp hafter)
        have hvalue := (complete (2 * (before ++ (text ++ after)).length + 2)).value hbefore h
          (delimits_of_isSpaces hafter) (by simp only [List.length_append]; omega)
        rw [Value.ofBytes?, hvalue]
        exact if_pos hspaces

/-- No text denotes two documents. -/
theorem Item.unique {text : Bytes} {v w : Value} (hv : Item text v) (hw : Item text w) :
    v = w := by
  rw [← ofBytes?_eq_some_iff] at hv hw
  exact Option.some.inj (hv.symm.trans hw)

end GlyphSearch.Json
