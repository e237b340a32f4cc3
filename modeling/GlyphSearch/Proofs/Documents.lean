import GlyphSearch.Json.Record
import GlyphSearch.Proofs.Digits
import GlyphSearch.Proofs.Grammar

/-!
# Pieces of documents that are written

A writer puts documents together from names without escapes and from natural
numbers. Both are in the grammar as they are written, and what is read out of
them is what they were written for.
-/

namespace GlyphSearch.Json

open Decimal Text

/-! ## Strings -/

theorem isLiteral_of_plain {literal : Bytes} (h : literal.all isPlain) : IsLiteral literal :=
  List.append_nil literal ▸ isLiteral_append h .nil

theorem unescapeOnto_of_plain {literal : Bytes} (h : literal.all isPlain) :
    unescapeOnto [] literal = some literal.reverse := by
  have honto := unescapeOnto_append h [] []
  rw [List.append_nil, List.append_nil] at honto
  rw [honto, unescapeOnto.eq_def]

theorem unescape?_bytes {s : String} (hplain : (bytes s).all isPlain)
    (hascii : s.toList.all (·.toNat < 0x80)) : unescape? (bytes s) = some s := by
  have hlow : ∀ c ∈ s.toList, c.toNat < 0x80 := List.all_iff_forall_prop.mp hascii
  have hbytes : ∀ b ∈ bytes s, b.toNat < 0x80 := by
    refine List.forall_mem_map.mpr fun c hc => ?_
    rw [byte, UInt8.toNat_ofNat_of_lt' (Nat.lt_trans (hlow c hc) (by decide))]
    exact hlow c hc
  have hsame : ∀ c ∈ s.toList, (char ∘ byte) c = c := fun c hc => char_byte (hlow c hc)
  rw [unescape?, unescapeOnto_of_plain hplain]
  simp only [Option.bind_eq_bind, Option.bind_some, List.reverse_reverse]
  rw [decode?_of_ascii hbytes, bytes, List.map_map, List.map_congr_left hsame, List.map_id',
    String.ofList_toList]

/-! ## Natural numbers -/

/-- The digits of a number as they are written. -/
def digitBytes (n : Nat) : Bytes := (Nat.toDigits 10 n).map byte

theorem bytes_toString (n : Nat) : bytes (toString n) = digitBytes n := by
  rw [bytes, Nat.toString_eq_ofList_toDigits, String.toList_ofList]
  rfl

theorem ascii_toString (n : Nat) : (toString n).toList.all (·.toNat < 0x80) := by
  rw [Nat.toString_eq_ofList_toDigits, String.toList_ofList]
  exact List.all_iff_forall_prop.mpr (forall_mem_toDigits (by decide) n)

theorem forall_mem_digitBytes {p : UInt8 → Prop} (h : ∀ d, d < 10 → p (byte (Nat.digitChar d)))
    (n : Nat) : ∀ b ∈ digitBytes n, p b :=
  List.forall_mem_map.mpr (forall_mem_toDigits h n)

theorem map_char_digitBytes (n : Nat) : (digitBytes n).map char = Nat.toDigits 10 n := by
  have hsame : ∀ c ∈ Nat.toDigits 10 n, (char ∘ byte) c = c := forall_mem_toDigits (by decide) n
  rw [digitBytes, List.map_map, List.map_congr_left hsame, List.map_id']

theorem digitBytes_ne_nil (n : Nat) : digitBytes n ≠ [] := by simp [digitBytes]

theorem isWhole_digitBytes (n : Nat) : IsWhole (digitBytes n) := by
  have hall : ∀ b ∈ digitBytes n, isDigitByte b = true := forall_mem_digitBytes (by decide) n
  refine ⟨⟨digitBytes_ne_nil n, List.all_eq_true.mpr hall⟩, fun hzero => ?_⟩
  rcases Nat.eq_zero_or_pos n with rfl | hn
  · rfl
  · refine absurd ?_ (head?_toDigits_ne hn)
    rw [← map_char_digitBytes, List.head?_map, hzero]
    rfl

theorem denotes_digitBytes (n : Nat) :
    Denotes (digitBytes n) (.number (Nat.toDigits 10 n)) := by
  have hnumber : IsNumber (digitBytes n) :=
    ⟨[], digitBytes n, [], [], by simp, .inl rfl, isWhole_digitBytes n, .inl rfl, .inl rfl⟩
  rw [← map_char_digitBytes]
  exact .number hnumber

theorem splitSign_of_unsigned {cs : List Char} (h : ∀ c ∈ cs, c ≠ '-' ∧ c ≠ '+') :
    splitSign cs = (false, cs) := by
  unfold splitSign
  split
  · exact absurd rfl (h '-' List.mem_cons_self).1
  · exact absurd rfl (h '+' List.mem_cons_self).2
  · rfl

theorem splitSign_toDigits (n : Nat) :
    splitSign (Nat.toDigits 10 n) = (false, Nat.toDigits 10 n) :=
  splitSign_of_unsigned (forall_mem_toDigits (by decide) n)

theorem splitDigits_toDigits (n : Nat) :
    splitDigits (Nat.toDigits 10 n) = (Nat.toDigits 10 n, []) := by
  have hall : ∀ c ∈ Nat.toDigits 10 n, isDigit c = true := forall_mem_toDigits (by decide) n
  rw [splitDigits, List.takeWhile_eq_self_iff.mpr hall, List.dropWhile_eq_nil_iff.mpr hall]

theorem ofLiteral?_toDigits {n : Nat} (hn : n < wholeLimit) :
    Number.ofLiteral? (Nat.toDigits 10 n) = some (.whole n) := by
  have hvalue : ofDigits (Nat.toDigits 10 n) = n := Nat.ofDigitChars_ten_toDigits
  rw [Number.ofLiteral?, splitSign_toDigits]
  dsimp only
  rw [splitDigits_toDigits]
  dsimp only
  rw [hvalue]
  exact if_pos ⟨rfl, rfl, hn⟩

theorem natural?_toDigits {n : Nat} (hn : n < wholeLimit) :
    (Value.number (Nat.toDigits 10 n)).natural? = some n := by
  rw [Value.natural?, Value.number?, ofLiteral?_toDigits hn]
  exact if_pos (Int.natCast_nonneg n)

end GlyphSearch.Json
