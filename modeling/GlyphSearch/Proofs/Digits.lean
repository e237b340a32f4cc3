import GlyphSearch.Decimal.Numeral
import GlyphSearch.Decimal.Shortest
import Mathlib.Data.List.Induction
import Mathlib.Data.List.TakeWhile
import Mathlib.Tactic.Ring

/-!
# Digits and the numbers they write

A number is written in digits of base ten and read back by a fold over them.
The digits of a number are the only ones that write it without a zero in
front, and zeros that are put behind it or dropped there are powers of ten.
-/

namespace GlyphSearch.Decimal

theorem foldl_digits (start : Nat) (digits : List Char) :
    digits.foldl (fun n c => 10 * n + digitValue c) start =
      start * 10 ^ digits.length + ofDigits digits := by
  induction digits generalizing start with
  | nil => exact (Nat.mul_one start).symm
  | cons c digits ih =>
      rw [ofDigits, List.foldl_cons, List.foldl_cons, ih, ih (10 * 0 + digitValue c),
        List.length_cons]
      ring

theorem ofDigits_append (front back : List Char) :
    ofDigits (front ++ back) = ofDigits front * 10 ^ back.length + ofDigits back := by
  rw [ofDigits, List.foldl_append]
  exact foldl_digits _ back

theorem ofDigits_replicate_zero (n : Nat) : ofDigits (List.replicate n '0') = 0 := by
  induction n with
  | zero => rfl
  | succ n ih => rw [List.replicate_succ', ofDigits_append, ih]; rfl

theorem ofDigits_append_zeros (digits : List Char) (n : Nat) :
    ofDigits (digits ++ List.replicate n '0') = ofDigits digits * 10 ^ n := by
  rw [ofDigits_append, ofDigits_replicate_zero, List.length_replicate, Nat.add_zero]

theorem ofDigits_zeros_append (n : Nat) (digits : List Char) :
    ofDigits (List.replicate n '0' ++ digits) = ofDigits digits := by
  rw [ofDigits_append, ofDigits_replicate_zero, Nat.zero_mul, Nat.zero_add]

theorem digitChar_digitValue {c : Char} (hc : isDigit c) :
    digitValue c < 10 ∧ Nat.digitChar (digitValue c) = c := by
  rw [isDigit, Bool.and_eq_true, decide_eq_true_iff, decide_eq_true_iff] at hc
  obtain ⟨hlow, hhigh⟩ := hc
  have hlow : 48 ≤ c.toNat := hlow
  have hhigh : c.toNat ≤ 57 := hhigh
  have hchar : ∀ n, n < 10 → Nat.digitChar n = Char.ofNat (48 + n) := by decide
  have hvalue : digitValue c = c.toNat - 48 := rfl
  refine ⟨by omega, ?_⟩
  rw [hchar _ (by omega), hvalue, Nat.add_sub_cancel' hlow, Char.ofNat_toNat]

theorem splitSign_cons_of_isDigit {c : Char} (hc : isDigit c) (rest : List Char) :
    splitSign (c :: rest) = (false, c :: rest) := by
  unfold splitSign
  split
  · next heq => cases heq; exact absurd hc (by decide)
  · next heq => cases heq; exact absurd hc (by decide)
  · rfl

/-- Digits are those of the number that they write, unless there is a zero in
front of them. -/
theorem toDigits_ofDigits {digits : List Char} (hne : digits ≠ [])
    (hall : ∀ c ∈ digits, isDigit c) (hzero : digits.head? = some '0' → digits.length = 1) :
    Nat.toDigits 10 (ofDigits digits) = digits := by
  induction digits using List.reverseRecOn with
  | nil => exact absurd rfl hne
  | append_singleton front c ih =>
      obtain ⟨hsmall, hchar⟩ := digitChar_digitValue (hall c (by simp))
      have hlast : Nat.toDigits 10 (digitValue c) = [c] := by
        rw [Nat.toDigits_of_lt_base hsmall, hchar]
      have hvalue : ofDigits (front ++ [c]) = 10 * ofDigits front + digitValue c := by
        rw [ofDigits, List.foldl_append]
        rfl
      rw [hvalue]
      by_cases hfront : front = []
      · subst hfront
        rw [show ofDigits [] = 0 from rfl, Nat.mul_zero, Nat.zero_add, hlast, List.nil_append]
      · have hhead : front.head? ≠ some '0' := by
          intro hhead
          have hone := hzero (by rw [List.head?_append, hhead]; rfl)
          rw [List.length_append, List.length_singleton] at hone
          exact hfront (List.length_eq_zero_iff.mp (by omega))
        have hfrontDigits := ih hfront (fun d hd => hall d (List.mem_append_left _ hd))
          (fun h => absurd h hhead)
        have hpos : 0 < ofDigits front := by
          refine Nat.pos_of_ne_zero fun h => hhead ?_
          rw [← hfrontDigits, h]
          rfl
        rw [← Nat.toDigits_append_toDigits (by decide) hpos hsmall, hfrontDigits, hlast]

theorem forall_mem_toDigits {p : Char → Prop} (h : ∀ d, d < 10 → p (Nat.digitChar d)) (n : Nat) :
    ∀ c ∈ Nat.toDigits 10 n, p c := by
  induction n using Nat.strongRecOn with
  | ind n ih =>
      intro c hc
      by_cases hn : n < 10
      · rw [Nat.toDigits_of_lt_base hn, List.mem_singleton] at hc
        exact hc ▸ h n hn
      · rw [Nat.toDigits_of_base_le (by decide) (by omega), List.mem_append,
          List.mem_singleton] at hc
        rcases hc with hfront | hlast
        · exact ih (n / 10) (by omega) c hfront
        · exact hlast ▸ h (n % 10) (by omega)

/-- Only zero begins with the digit zero. -/
theorem head?_toDigits_ne {n : Nat} (hn : 0 < n) : (Nat.toDigits 10 n).head? ≠ some '0' := by
  induction n using Nat.strongRecOn with
  | ind n ih =>
      by_cases hsmall : n < 10
      · have hdigit : ∀ d, d < 10 → 0 < d → Nat.digitChar d ≠ '0' := by decide
        rw [Nat.toDigits_of_lt_base hsmall, List.head?_cons]
        exact fun h => hdigit n hsmall hn (Option.some.inj h)
      · have hfront := ih (n / 10) (by omega) (by omega)
        rw [Nat.toDigits_of_base_le (by decide) (by omega), List.head?_append]
        cases hhead : (Nat.toDigits 10 (n / 10)).head? with
        | none => exact absurd (List.head?_eq_none_iff.mp hhead) Nat.toDigits_ne_nil
        | some c =>
            rw [hhead] at hfront
            exact hfront

theorem pow_length_toDigits_le {n : Nat} (hn : 0 < n) :
    10 ^ (Nat.toDigits 10 n).length ≤ 10 * n := by
  induction n using Nat.strongRecOn with
  | ind n ih =>
      by_cases hsmall : n < 10
      · rw [Nat.toDigits_of_lt_base hsmall, List.length_singleton]
        omega
      · have hfront := ih (n / 10) (by omega) (by omega)
        rw [Nat.toDigits_of_base_le (by decide) (by omega), List.length_append,
          List.length_singleton, Nat.pow_succ]
        omega

/-- What is dropped at the end are zeros. -/
theorem exists_trimZeros_append (digits : List Char) :
    ∃ n, trimZeros digits ++ List.replicate n '0' = digits := by
  have hsplit := List.takeWhile_append_dropWhile (p := (· = '0')) (l := digits.reverse)
  have hzeros : digits.reverse.takeWhile (· = '0') =
      List.replicate (digits.reverse.takeWhile (· = '0')).length '0' := by
    refine List.eq_replicate_iff.mpr ⟨rfl, fun c hc => ?_⟩
    have hzero : decide (c = '0') = true := List.mem_takeWhile_imp (p := (· = '0')) hc
    exact of_decide_eq_true hzero
  refine ⟨(digits.reverse.takeWhile (· = '0')).length, ?_⟩
  rw [trimZeros, ← List.reverse_replicate, ← hzeros, ← List.reverse_append, hsplit,
    List.reverse_reverse]

end GlyphSearch.Decimal
