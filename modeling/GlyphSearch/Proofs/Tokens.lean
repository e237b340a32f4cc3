import GlyphSearch.Proofs.Decimals
import GlyphSearch.Proofs.Signs
import GlyphSearch.Query.Parse

/-!
# What the words of a query are taken for

A word that spells a decimal number is sorted by its magnitude alone. Below the
limit of 32 bits it is the number nearest to it, from there to the limit of 64
bits it is out of range, and beyond that it is called not finite, as the words
for infinity are. Since the reader goes through the words one by one, a word
has the same effect at every place of a query whose other words are numbers.
-/

namespace GlyphSearch.Query

open Binary Decimal Text

theorem lowerAscii_ofList (cs : List Char) :
    lowerAscii (String.ofList cs) = String.ofList (cs.map Char.toLower) := by
  have hlower : ∀ k, k < 91 → 65 ≤ k → Char.ofNat (k + 32) = (Char.ofNat k).toLower := by decide
  rw [lowerAscii, String.toList_ofList]
  congr 1
  refine List.map_congr_left fun c _ => ?_
  by_cases h : 'A' ≤ c ∧ c ≤ 'Z'
  · have hlow : 65 ≤ c.toNat := h.1
    have hhigh : c.toNat ≤ 90 := h.2
    rw [if_pos h, hlower _ (by omega) hlow, Char.ofNat_toNat]
  · have hupper : ¬ (c.val ≥ 'A'.val ∧ c.val ≤ 'Z'.val) := h
    rw [if_neg h]
    delta Char.toLower
    rw [dif_neg hupper]

theorem isSpecialWord_iff {token : List Char} : isSpecialWord token ↔ SpellsSpecial token := by
  rw [isSpecialWord, List.contains_iff_mem, lowerAscii_ofList]
  constructor
  · intro h
    obtain ⟨sign, hsign, htoken⟩ := exists_sign token
    rw [htoken]
    exact .mk hsign h
  · intro h
    exact h.splitSign

/-! ## Words -/

/-- Whether a word is read as a number of 32 bits: it spells a decimal number,
and none of them is nearer to that. -/
def ReadsAs (token : List Char) (v : Single) : Prop :=
  ∃ n, SpellsNumeral token n ∧ v.isNegative = n.negative ∧ v.isFinite ∧
    Closest .single v.field n.magnitude

/-- What a word is taken for. -/
inductive Sorted (token : List Char) : Except QueryFault Single → Prop
  | number {v : Single} (h : ReadsAs token v) : Sorted token (.ok v)
  | outOfRange {n : Numeral} (hn : SpellsNumeral token n) (hlow : limit .single ≤ n.magnitude)
      (hhigh : n.magnitude < limit .double) :
      Sorted token (.error (.outOfRange (String.ofList token)))
  | huge {n : Numeral} (hn : SpellsNumeral token n) (h : limit .double ≤ n.magnitude) :
      Sorted token (.error (.notFinite (String.ofList token)))
  | special (h : SpellsSpecial token) : Sorted token (.error (.notFinite (String.ofList token)))
  | other (hn : ∀ n, ¬ SpellsNumeral token n) (h : ¬ SpellsSpecial token) :
      Sorted token (.error (.notANumber (String.ofList token)))

theorem nearest_single_lt (n : Numeral) : n.nearest .single < 2 ^ 31 :=
  Nat.lt_of_le_of_lt (n.nearest_le_infinity moderate_single (by decide)) (by decide)

theorem nearest_double_lt (n : Numeral) : n.nearest .double < 2 ^ 63 :=
  Nat.lt_of_le_of_lt (n.nearest_le_infinity moderate_double (by decide)) (by decide)

theorem isFinite_toSingle_iff {n : Numeral} : n.toSingle.isFinite ↔ n.magnitude < limit .single := by
  rw [← Numeral.nearest_lt_infinity_iff moderate_single (by decide), Single.isFinite,
    Numeral.toSingle, Single.field_ofField (nearest_single_lt n), decide_eq_true_iff]

theorem isFinite_toDouble_iff {n : Numeral} : n.toDouble.isFinite ↔ n.magnitude < limit .double := by
  rw [← Numeral.nearest_lt_infinity_iff moderate_double (by decide), Double.isFinite,
    Numeral.toDouble, Double.field_ofField (nearest_double_lt n), decide_eq_true_iff]

/-- Below the limit a number is the nearest one, with its sign. -/
theorem readsAs_toSingle {token : List Char} {n : Numeral} (hn : SpellsNumeral token n)
    (h : n.magnitude < limit .single) : ReadsAs token n.toSingle := by
  have hrounds := n.rounds_nearest moderate_single (by decide)
  have hfield : n.toSingle.field = n.nearest .single :=
    Single.field_ofField (nearest_single_lt n)
  refine ⟨n, hn, Single.isNegative_ofField (nearest_single_lt n), isFinite_toSingle_iff.mpr h, ?_⟩
  rw [hfield]
  generalize n.nearest .single = found at hrounds
  cases hrounds with
  | finite _ hcovers => exact hcovers.closest
  | overflow hlimit => exact absurd h (not_lt.mpr hlimit)

theorem toSingle_of_closest {n : Numeral} {v : Single} (hsign : v.isNegative = n.negative)
    (hfinite : v.isFinite) (h : Closest .single v.field n.magnitude) : n.toSingle = v := by
  have hnearest := Numeral.nearest_of_covers moderate_single (of_decide_eq_true hfinite)
    (h.covers n.magnitude_nonneg)
  rw [Numeral.toSingle, hnearest, ← hsign]
  exact Single.ofField_field v

theorem sorted_parseToken (token : List Char) : Sorted token (parseToken token) := by
  rw [parseToken]
  cases hread : Numeral.ofChars? token with
  | some n =>
      have hn := ofChars?_eq_some_iff.mp hread
      dsimp only
      split
      · next hsingle => exact .number (readsAs_toSingle hn (isFinite_toSingle_iff.mp hsingle))
      · next hsingle =>
          have hlow := not_lt.mp (mt isFinite_toSingle_iff.mpr hsingle)
          split
          · next hdouble => exact .outOfRange hn hlow (isFinite_toDouble_iff.mp hdouble)
          · next hdouble => exact .huge hn (not_lt.mp (mt isFinite_toDouble_iff.mpr hdouble))
  | none =>
      dsimp only
      split
      · next hspecial => exact .special (isSpecialWord_iff.mp hspecial)
      · next hspecial =>
          refine .other (fun n hn => ?_) (mt isSpecialWord_iff.mpr hspecial)
          rw [ofChars?_eq_some_iff.mpr hn] at hread
          cases hread

theorem ofChars?_eq_none {token : List Char} (h : ∀ n, ¬ SpellsNumeral token n) :
    Numeral.ofChars? token = none :=
  Option.eq_none_iff_forall_ne_some.mpr fun n hn => h n (ofChars?_eq_some_iff.mp hn)

theorem parseToken_of_sorted {token : List Char} {r : Except QueryFault Single}
    (h : Sorted token r) : parseToken token = r := by
  rw [parseToken]
  cases h with
  | number h =>
      obtain ⟨n, hn, hsign, hfinite, hclosest⟩ := h
      rw [ofChars?_eq_some_iff.mpr hn]
      dsimp only
      rw [toSingle_of_closest hsign hfinite hclosest, if_pos hfinite]
  | @outOfRange n hn hlow hhigh =>
      have hsingle : ¬ n.toSingle.isFinite := mt isFinite_toSingle_iff.mp (not_lt.mpr hlow)
      rw [ofChars?_eq_some_iff.mpr hn]
      dsimp only
      rw [if_neg hsingle, if_pos (isFinite_toDouble_iff.mpr hhigh)]
  | @huge n hn h =>
      have hsingle : ¬ n.toSingle.isFinite :=
        mt isFinite_toSingle_iff.mp (not_lt.mpr (limit_single_le_double.trans h))
      have hdouble : ¬ n.toDouble.isFinite := mt isFinite_toDouble_iff.mp (not_lt.mpr h)
      rw [ofChars?_eq_some_iff.mpr hn]
      dsimp only
      rw [if_neg hsingle, if_neg hdouble]
  | special h =>
      rw [ofChars?_eq_none h.not_spellsNumeral]
      exact if_pos (isSpecialWord_iff.mpr h)
  | other hn h =>
      rw [ofChars?_eq_none hn]
      exact if_neg (mt isSpecialWord_iff.mp h)

theorem parseToken_eq_iff {token : List Char} {r : Except QueryFault Single} :
    parseToken token = r ↔ Sorted token r :=
  ⟨fun h => h ▸ sorted_parseToken token, parseToken_of_sorted⟩

section

variable {token : List Char}

theorem parseToken_eq_ok_iff {v : Single} : parseToken token = .ok v ↔ ReadsAs token v := by
  rw [parseToken_eq_iff]
  constructor
  · rintro (h | _ | _ | _ | _)
    exact h
  · exact .number

theorem exists_parseToken_eq_ok_iff : (∃ v, parseToken token = .ok v) ↔
    ∃ n, SpellsNumeral token n ∧ n.magnitude < limit .single := by
  constructor
  · rintro ⟨v, hv⟩
    obtain ⟨n, hn, -, hfinite, hclosest⟩ := parseToken_eq_ok_iff.mp hv
    exact ⟨n, hn, (hclosest.covers n.magnitude_nonneg).lt_limit (by decide)
      (of_decide_eq_true hfinite)⟩
  · rintro ⟨n, hn, h⟩
    exact ⟨_, parseToken_eq_ok_iff.mpr (readsAs_toSingle hn h)⟩

theorem parseToken_outOfRange_iff :
    parseToken token = .error (.outOfRange (String.ofList token)) ↔
      ∃ n, SpellsNumeral token n ∧ limit .single ≤ n.magnitude ∧ n.magnitude < limit .double := by
  rw [parseToken_eq_iff]
  constructor
  · rintro (_ | ⟨hn, hlow, hhigh⟩)
    exact ⟨_, hn, hlow, hhigh⟩
  · rintro ⟨n, hn, hlow, hhigh⟩
    exact .outOfRange hn hlow hhigh

theorem parseToken_notFinite_iff :
    parseToken token = .error (.notFinite (String.ofList token)) ↔
      SpellsSpecial token ∨ ∃ n, SpellsNumeral token n ∧ limit .double ≤ n.magnitude := by
  rw [parseToken_eq_iff]
  constructor
  · rintro (_ | _ | ⟨hn, h⟩ | h)
    · exact .inr ⟨_, hn, h⟩
    · exact .inl h
  · rintro (h | ⟨n, hn, h⟩)
    · exact .special h
    · exact .huge hn h

theorem parseToken_notANumber_iff :
    parseToken token = .error (.notANumber (String.ofList token)) ↔
      ¬ SpellsSpecial token ∧ ∀ n, ¬ SpellsNumeral token n := by
  rw [parseToken_eq_iff]
  constructor
  · rintro (_ | _ | _ | _ | ⟨hn, h⟩)
    exact ⟨h, hn⟩
  · rintro ⟨h, hn⟩
    exact .other hn h

end

/-! ## Queries -/

theorem mapM_eq_ok_iff {α β ε : Type} {f : α → Except ε β} {xs : List α} {ys : List β} :
    xs.mapM f = .ok ys ↔ List.Forall₂ (fun x y => f x = .ok y) xs ys := by
  induction xs generalizing ys with
  | nil =>
      rw [List.mapM_nil, List.forall₂_nil_left_iff]
      exact ⟨fun h => (Except.ok.inj h).symm, fun h => congrArg Except.ok h.symm⟩
  | cons x xs ih =>
      rw [List.mapM_cons, bind_eq_ok, List.forall₂_cons_left_iff]
      constructor
      · rintro ⟨y, hy, h⟩
        obtain ⟨rest, hrest, h⟩ := bind_eq_ok.mp h
        cases h
        exact ⟨y, rest, hy, ih.mp hrest, rfl⟩
      · rintro ⟨y, rest, hy, hrest, rfl⟩
        exact ⟨y, hy, bind_eq_ok.mpr ⟨rest, ih.mpr hrest, rfl⟩⟩

section

variable {text : String} {before after : List (List Char)} {token : List Char}
  {vs ws : List Single}

theorem parse_of_ok {values : List Single} (h : (words text.toList).mapM parseToken = .ok values)
    (hne : values ≠ []) : parse text = .ok values := by
  obtain ⟨v, vs, rfl⟩ := List.exists_cons_of_ne_nil hne
  rw [parse, h]

theorem parse_of_error {fault : QueryFault}
    (h : (words text.toList).mapM parseToken = .error fault) :
    parse text = .error (.invalidQuery fault) := by
  rw [parse, h]

/-- One word decides a query whose other words are numbers. -/
theorem parse_of_words (htext : words text.toList = before ++ token :: after)
    (hbefore : List.Forall₂ ReadsAs before vs) (hafter : List.Forall₂ ReadsAs after ws) :
    parse text = match parseToken token with
      | .ok v => .ok (vs ++ v :: ws)
      | .error fault => .error (.invalidQuery fault) := by
  have hvs : before.mapM parseToken = .ok vs :=
    mapM_eq_ok_iff.mpr (hbefore.imp fun _ _ => parseToken_eq_ok_iff.mpr)
  have hws : after.mapM parseToken = .ok ws :=
    mapM_eq_ok_iff.mpr (hafter.imp fun _ _ => parseToken_eq_ok_iff.mpr)
  cases htoken : parseToken token with
  | ok v =>
      refine parse_of_ok ?_ (List.append_ne_nil_of_right_ne_nil vs (List.cons_ne_nil v ws))
      rw [htext, List.mapM_append, List.mapM_cons, hvs, htoken, hws]
      rfl
  | error fault =>
      refine parse_of_error ?_
      rw [htext, List.mapM_append, List.mapM_cons, hvs, htoken]
      rfl

theorem exists_values {tokens : List (List Char)} (h : ∀ t ∈ tokens, ∃ v, ReadsAs t v) :
    ∃ vs, List.Forall₂ ReadsAs tokens vs := by
  induction tokens with
  | nil => exact ⟨[], .nil⟩
  | cons t tokens ih =>
      obtain ⟨v, hv⟩ := h t List.mem_cons_self
      obtain ⟨vs, hvs⟩ := ih fun u hu => h u (List.mem_cons_of_mem t hu)
      exact ⟨v :: vs, .cons hv hvs⟩

end

/-- In a query whose other words are numbers, a word is sorted by its spelling
and its magnitude alone, wherever it stands. A decimal number is read as the
nearest number of 32 bits if that is finite; if it is not, the word is out of
range up to the limit of 64 bits, and called not finite beyond it, as the words
for infinity and NaN are everywhere. Only what is none of these is called no
number. -/
theorem word_sorted_by_spelling_and_magnitude {text : String} {before after : List (List Char)}
    {token : List Char} (htext : words text.toList = before ++ token :: after)
    (hbefore : ∀ t ∈ before, ∃ v, ReadsAs t v) (hafter : ∀ t ∈ after, ∃ v, ReadsAs t v) :
    (∀ values, parse text = .ok values ↔ ∃ vs v ws, values = vs ++ v :: ws ∧
      List.Forall₂ ReadsAs before vs ∧ ReadsAs token v ∧ List.Forall₂ ReadsAs after ws) ∧
    ((∃ values, parse text = .ok values) ↔
      ∃ n, SpellsNumeral token n ∧ n.magnitude < 2 ^ 128 - 2 ^ 103) ∧
    (parse text = .error (.invalidQuery (.outOfRange (String.ofList token))) ↔
      ∃ n, SpellsNumeral token n ∧ 2 ^ 128 - 2 ^ 103 ≤ n.magnitude ∧
        n.magnitude < 2 ^ 1024 - 2 ^ 970) ∧
    (parse text = .error (.invalidQuery (.notFinite (String.ofList token))) ↔
      SpellsSpecial token ∨ ∃ n, SpellsNumeral token n ∧ 2 ^ 1024 - 2 ^ 970 ≤ n.magnitude) ∧
    (parse text = .error (.invalidQuery (.notANumber (String.ofList token))) ↔
      ¬ SpellsSpecial token ∧ ∀ n, ¬ SpellsNumeral token n) := by
  obtain ⟨vs, hvs⟩ := exists_values hbefore
  obtain ⟨ws, hws⟩ := exists_values hafter
  have hparse := parse_of_words htext hvs hws
  have herror (fault : QueryFault) :
      parse text = .error (.invalidQuery fault) ↔ parseToken token = .error fault := by
    rw [hparse]
    cases parseToken token <;> simp
  have hok (values : List Single) :
      parse text = .ok values ↔ ∃ v, values = vs ++ v :: ws ∧ parseToken token = .ok v := by
    rw [hparse]
    cases parseToken token <;> simp [eq_comm]
  rw [herror, herror, herror, parseToken_outOfRange_iff, parseToken_notFinite_iff,
    parseToken_notANumber_iff, limit_single, limit_double]
  refine ⟨fun values => ⟨fun h => ?_, ?_⟩, ?_, Iff.rfl, Iff.rfl, Iff.rfl⟩
  · obtain ⟨v, hvalues, hv⟩ := (hok values).mp h
    exact ⟨vs, v, ws, hvalues, hvs, parseToken_eq_ok_iff.mp hv, hws⟩
  · rintro ⟨vs', v, ws', rfl, hvs', hv, hws'⟩
    rw [parse_of_words htext hvs' hws', parseToken_eq_ok_iff.mpr hv]
  · rw [← limit_single, ← exists_parseToken_eq_ok_iff]
    constructor
    · rintro ⟨values, h⟩
      obtain ⟨v, -, hv⟩ := (hok values).mp h
      exact ⟨v, hv⟩
    · rintro ⟨v, hv⟩
      exact ⟨_, (hok _).mpr ⟨v, rfl, hv⟩⟩

theorem word_sorted_behind_one_half :
    words "0.5 1e39".toList = ["0.5".toList] ++ "1e39".toList :: [] ∧
      (∃ v, ReadsAs "0.5".toList v) ∧
      parse "0.5 1e39" = .error (.invalidQuery (.outOfRange "1e39")) := by
  have htext : words "0.5 1e39".toList = ["0.5".toList] ++ "1e39".toList :: [] := by decide
  have hhalf : ∃ v, ReadsAs "0.5".toList v :=
    ⟨⟨0x3f000000⟩, parseToken_eq_ok_iff.mp (by decide +kernel)⟩
  have hspells : SpellsNumeral "1e39".toList ⟨false, 1, 39⟩ :=
    ofChars?_eq_some_iff.mp (by decide)
  refine ⟨htext, hhalf, ?_⟩
  refine (word_sorted_by_spelling_and_magnitude htext (List.forall_mem_singleton.mpr hhalf)
    (List.forall_mem_nil _)).2.2.1.mpr ⟨_, hspells, ?_, ?_⟩
  · norm_num [Numeral.magnitude]
  · have hlarge : (2 : ℚ) ^ 130 - 2 ^ 0 ≤ 2 ^ 1024 - 2 ^ 970 :=
      two_pow_sub_le (by decide) (by decide)
    refine lt_of_lt_of_le ?_ hlarge
    norm_num [Numeral.magnitude]

/-- A decimal number that no format has room for is not told apart from a word
for infinity. -/
theorem huge_number_called_not_finite :
    SpellsNumeral "1e400".toList ⟨false, 1, 400⟩ ∧ ¬ SpellsSpecial "1e400".toList ∧
      parse "1e400" = .error (.invalidQuery (.notFinite "1e400")) := by
  have hspells : SpellsNumeral "1e400".toList ⟨false, 1, 400⟩ :=
    ofChars?_eq_some_iff.mp (by decide)
  exact ⟨hspells, fun h => h.not_spellsNumeral _ hspells, by decide +kernel⟩

end GlyphSearch.Query
