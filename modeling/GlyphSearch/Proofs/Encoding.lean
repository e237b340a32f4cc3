import GlyphSearch.Proofs.Lossy

/-!
# Texts are read back from their bytes

A character is encoded as one to four bytes, and these are read as the
character whatever follows them: the lead byte tells how many there are, and
the bounds of the byte behind it leave out only what no character is encoded
as. So a text is its bytes read character by character.

They leave out all of that, too: what is read as a character is what the
character is encoded as. So bytes can be read exactly if they are those of a
text, and of one text only.
-/

namespace GlyphSearch.Text

/-! ## One character -/

theorem Lead.ofByte?_two {b : Nat} (hlow : 0xc2 ≤ b) (hhigh : b < 0xe0) :
    Lead.ofByte? b = some ⟨1, 0x80, 0xbf, b - 0xc0⟩ := by
  rw [Lead.ofByte?, if_neg (by omega), if_pos hhigh]

theorem Lead.ofByte?_three {b : Nat} (hlow : 0xe0 ≤ b) (hhigh : b < 0xf0) :
    Lead.ofByte? b = some ⟨2, if b = 0xe0 then 0xa0 else 0x80, if b = 0xed then 0x9f else 0xbf,
      b - 0xe0⟩ := by
  rw [Lead.ofByte?, if_neg (by omega), if_neg (by omega)]
  by_cases hfirst : b = 0xe0
  · subst hfirst
    rfl
  · rw [if_neg hfirst, if_neg hfirst]
    by_cases hsurrogates : b = 0xed
    · subst hsurrogates
      rfl
    · rw [if_neg hsurrogates, if_neg hsurrogates, if_pos hhigh]

theorem Lead.ofByte?_four {b : Nat} (hlow : 0xf0 ≤ b) (hhigh : b ≤ 0xf4) :
    Lead.ofByte? b = some ⟨3, if b = 0xf0 then 0x90 else 0x80, if b = 0xf4 then 0x8f else 0xbf,
      b - 0xf0⟩ := by
  rw [Lead.ofByte?, if_neg (by omega), if_neg (by omega), if_neg (by omega), if_neg (by omega),
    if_neg (by omega)]
  by_cases hfirst : b = 0xf0
  · subst hfirst
    rfl
  · rw [if_neg hfirst, if_neg hfirst]
    by_cases hlast : b = 0xf4
    · subst hlast
      rfl
    · rw [if_neg hlast, if_neg hlast, if_pos (by omega)]

theorem continuation_cons {low high n : Nat} (hn : n < 0x100) (hlow : low ≤ n) (hhigh : n ≤ high)
    (count value : Nat) (rest : Bytes) :
    continuation low high (count + 1) value (UInt8.ofNat n :: rest) =
      ((continuation 0x80 0xbf count (value * 64 + (n - 0x80)) rest).1,
        (continuation 0x80 0xbf count (value * 64 + (n - 0x80)) rest).2 + 1) := by
  have hnat : (UInt8.ofNat n).toNat = n := UInt8.toNat_ofNat_of_lt' hn
  rw [continuation, hnat, if_pos ⟨hlow, hhigh⟩]

theorem next_of_lead {n : Nat} (hn : n < 0x100) (hlarge : 0x80 ≤ n) {lead : Lead}
    (hlead : Lead.ofByte? n = some lead) (rest : Bytes) :
    next (UInt8.ofNat n) rest =
      ((continuation lead.low lead.high lead.following lead.value rest).1.map Char.ofNat,
        (continuation lead.low lead.high lead.following lead.value rest).2) := by
  have hnat : (UInt8.ofNat n).toNat = n := UInt8.toNat_ofNat_of_lt' hn
  rw [next, hnat, if_neg (by omega), hlead]

/-- The bytes of a character are read as it, whatever follows. -/
theorem next_utf8EncodeChar (c : Char) : ∃ b bs, String.utf8EncodeChar c = b :: bs ∧
    ∀ rest, next b (bs ++ rest) = (some c, bs.length) := by
  have hvalid : c.val.toNat < 0xd800 ∨ 0xdfff < c.val.toNat ∧ c.val.toNat < 0x110000 := c.valid
  have hchar : Char.ofNat c.val.toNat = c := Char.ofNat_toNat c
  rw [String.utf8EncodeChar]
  generalize c.val.toNat = v at hvalid hchar ⊢
  have hlast : v % 0x40 + 0x80 < 0x100 := by omega
  split
  · next hone =>
      refine ⟨_, _, rfl, fun rest => ?_⟩
      have hnat : (UInt8.ofNat v).toNat = v :=
        UInt8.toNat_ofNat_of_lt' (Nat.lt_of_le_of_lt hone (by decide))
      rw [next, hnat, if_pos (by omega), hchar]
      rfl
  split
  · next htwo =>
      refine ⟨_, _, rfl, fun rest => ?_⟩
      have hvalue : (v / 64 % 0x20 + 0xc0 - 0xc0) * 64 + (v % 0x40 + 0x80 - 0x80) = v := by omega
      rw [next_of_lead (by omega) (by omega) (Lead.ofByte?_two (by omega) (by omega)),
        List.singleton_append,
        continuation_cons hlast (by dsimp only; omega) (by dsimp only; omega),
        continuation, hvalue, Option.map_some, hchar]
      rfl
  split
  · next hthree =>
      refine ⟨_, _, rfl, fun rest => ?_⟩
      have hvalue : ((v / 4096 % 0x10 + 0xe0 - 0xe0) * 64 + (v / 64 % 0x40 + 0x80 - 0x80)) * 64 +
          (v % 0x40 + 0x80 - 0x80) = v := by omega
      rw [next_of_lead (by omega) (by omega) (Lead.ofByte?_three (by omega) (by omega)),
        List.cons_append, List.singleton_append,
        continuation_cons (by omega) (by dsimp only; split <;> omega)
          (by dsimp only; split <;> omega),
        continuation_cons hlast (by omega) (by omega),
        continuation, hvalue, Option.map_some, hchar]
      rfl
  · refine ⟨_, _, rfl, fun rest => ?_⟩
    have hvalue : (((v / 262144 % 0x08 + 0xf0 - 0xf0) * 64 + (v / 4096 % 0x40 + 0x80 - 0x80)) * 64 +
        (v / 64 % 0x40 + 0x80 - 0x80)) * 64 + (v % 0x40 + 0x80 - 0x80) = v := by omega
    rw [next_of_lead (by omega) (by omega) (Lead.ofByte?_four (by omega) (by omega)),
      List.cons_append, List.cons_append, List.singleton_append,
      continuation_cons (by omega) (by dsimp only; split <;> omega)
        (by dsimp only; split <;> omega),
      continuation_cons (by omega) (by omega) (by omega),
      continuation_cons hlast (by omega) (by omega),
      continuation, hvalue, Option.map_some, hchar]
    rfl

/-! ## Texts -/

theorem scan_utf8EncodeChar (c : Char) (rest : Bytes) :
    scan (String.utf8EncodeChar c ++ rest) = some c :: scan rest := by
  obtain ⟨b, bs, hbytes, hnext⟩ := next_utf8EncodeChar c
  rw [hbytes, List.cons_append, scan_cons, hnext, List.drop_left]

theorem scan_encode (s : String) : scan (encode s) = s.toList.map some := by
  rw [encode_eq_flatMap]
  induction s.toList with
  | nil => exact scan_nil
  | cons c cs ih => rw [List.flatMap_cons, scan_utf8EncodeChar, ih, List.map_cons]

/-- A text is read back from its bytes. -/
theorem decode?_encode (s : String) : decode? (encode s) = some s := by
  have hall : (s.toList.map some).all Option.isSome := by simp
  rw [decode?, scan_encode, if_pos hall, List.filterMap_map]
  change some (String.ofList (s.toList.filterMap some)) = some s
  rw [List.filterMap_some, String.ofList_toList]

theorem decodeLossy_encode (s : String) : decodeLossy (encode s) = s := by
  have hchars : (scan (encode s)).map (·.getD '\ufffd') = s.toList := by
    rw [scan_encode, List.map_map]
    exact List.map_id _
  rw [decodeLossy, hchars, String.ofList_toList]

/-! ## Only the bytes of a character are read as it -/

theorem continuation_succ_eq_some {low high count value v taken : Nat} {rest : Bytes}
    (h : continuation low high (count + 1) value rest = (some v, taken)) :
    ∃ b rest' taken', rest = b :: rest' ∧ taken = taken' + 1 ∧
      (low ≤ b.toNat ∧ b.toNat ≤ high) ∧
      continuation 0x80 0xbf count (value * 64 + (b.toNat - 0x80)) rest' = (some v, taken') := by
  cases rest with
  | nil =>
      rw [continuation] at h
      cases h
  | cons b rest =>
      rw [continuation] at h
      split at h
      · next hbounds =>
          obtain ⟨hfound, htaken⟩ := Prod.mk.inj h
          exact ⟨b, rest, _, rfl, htaken.symm, hbounds, Prod.ext hfound rfl⟩
      · cases h

theorem continuation_zero_eq_some {low high value v taken : Nat} {rest : Bytes}
    (h : continuation low high 0 value rest = (some v, taken)) : v = value ∧ taken = 0 := by
  rw [continuation] at h
  cases h
  exact ⟨rfl, rfl⟩

/-- A lead byte begins a sequence of two, three or four bytes. -/
theorem Lead.ofByte?_cases {b : Nat} {lead : Lead} (h : Lead.ofByte? b = some lead) :
    (0xc2 ≤ b ∧ b < 0xe0 ∧ lead = ⟨1, 0x80, 0xbf, b - 0xc0⟩) ∨
    (0xe0 ≤ b ∧ b < 0xf0 ∧ lead = ⟨2, if b = 0xe0 then 0xa0 else 0x80,
      if b = 0xed then 0x9f else 0xbf, b - 0xe0⟩) ∨
    0xf0 ≤ b ∧ b ≤ 0xf4 ∧ lead = ⟨3, if b = 0xf0 then 0x90 else 0x80,
      if b = 0xf4 then 0x8f else 0xbf, b - 0xf0⟩ := by
  have hlow : 0xc2 ≤ b := Nat.le_of_not_lt fun hlt => by
    rw [Lead.ofByte?, if_pos hlt] at h
    cases h
  have hhigh : b ≤ 0xf4 := Nat.le_of_not_lt fun hgt => by
    rw [Lead.ofByte?, if_neg (by omega), if_neg (by omega), if_neg (by omega), if_neg (by omega),
      if_neg (by omega), if_neg (by omega), if_neg (by omega), if_neg (by omega)] at h
    cases h
  rcases Nat.lt_or_ge b 0xe0 with htwo | hlong
  · rw [Lead.ofByte?_two hlow htwo] at h
    exact .inl ⟨hlow, htwo, (Option.some.inj h).symm⟩
  rcases Nat.lt_or_ge b 0xf0 with hthree | hfour
  · rw [Lead.ofByte?_three hlong hthree] at h
    exact .inr (.inl ⟨hlong, hthree, (Option.some.inj h).symm⟩)
  · rw [Lead.ofByte?_four hfour hhigh] at h
    exact .inr (.inr ⟨hfour, hhigh, (Option.some.inj h).symm⟩)

theorem byte_char (b : UInt8) : byte (char b) = b := by
  rw [byte, toNat_char, UInt8.ofNat_toNat]

theorem val_ofNat {v : Nat} (h : v.isValidChar) : (Char.ofNat v).val.toNat = v := by
  rw [Char.ofNat, dif_pos h]
  rfl

section

variable {v : Nat} {b b₁ b₂ b₃ : UInt8}

theorem utf8EncodeChar_two (hlow : 0x80 ≤ v) (hhigh : v < 0x800)
    (hb : v / 64 + 0xc0 = b.toNat) (hb₁ : v % 64 + 0x80 = b₁.toNat) :
    String.utf8EncodeChar (Char.ofNat v) = [b, b₁] := by
  have hfirst : v / 64 % 0x20 + 0xc0 = b.toNat := by omega
  rw [String.utf8EncodeChar, val_ofNat (.inl (by omega)), if_neg (by omega), if_pos (by omega),
    hfirst, hb₁, UInt8.ofNat_toNat, UInt8.ofNat_toNat]

theorem utf8EncodeChar_three (hlow : 0x800 ≤ v) (hhigh : v < 0x10000)
    (hvalid : v < 0xd800 ∨ 0xdfff < v) (hb : v / 4096 + 0xe0 = b.toNat)
    (hb₁ : v / 64 % 64 + 0x80 = b₁.toNat) (hb₂ : v % 64 + 0x80 = b₂.toNat) :
    String.utf8EncodeChar (Char.ofNat v) = [b, b₁, b₂] := by
  have hfirst : v / 4096 % 0x10 + 0xe0 = b.toNat := by omega
  rw [String.utf8EncodeChar, val_ofNat (hvalid.imp_right fun h => ⟨h, by omega⟩),
    if_neg (by omega), if_neg (by omega), if_pos (by omega), hfirst, hb₁, hb₂, UInt8.ofNat_toNat,
    UInt8.ofNat_toNat, UInt8.ofNat_toNat]

theorem utf8EncodeChar_four (hlow : 0x10000 ≤ v) (hhigh : v < 0x110000)
    (hb : v / 262144 + 0xf0 = b.toNat) (hb₁ : v / 4096 % 64 + 0x80 = b₁.toNat)
    (hb₂ : v / 64 % 64 + 0x80 = b₂.toNat) (hb₃ : v % 64 + 0x80 = b₃.toNat) :
    String.utf8EncodeChar (Char.ofNat v) = [b, b₁, b₂, b₃] := by
  have hfirst : v / 262144 % 0x08 + 0xf0 = b.toNat := by omega
  rw [String.utf8EncodeChar, val_ofNat (.inr ⟨by omega, hhigh⟩), if_neg (by omega),
    if_neg (by omega), if_neg (by omega), hfirst, hb₁, hb₂, hb₃, UInt8.ofNat_toNat,
    UInt8.ofNat_toNat, UInt8.ofNat_toNat, UInt8.ofNat_toNat]

end

theorem utf8EncodeChar_of_next {b : UInt8} {rest : Bytes} {c : Char} {n : Nat}
    (h : next b rest = (some c, n)) : String.utf8EncodeChar c = b :: rest.take n := by
  rw [next] at h
  split at h
  · next hascii =>
      cases h
      have hsmall : (char b).toNat < 0x80 := (toNat_char b).symm ▸ hascii
      exact (utf8EncodeChar_of_ascii hsmall).trans (congrArg (fun b => [b]) (byte_char b))
  split at h
  · cases h
  · next lead hlead =>
      obtain ⟨hfound, htaken⟩ := Prod.mk.inj h
      obtain ⟨v, hv, rfl⟩ := Option.map_eq_some_iff.mp hfound
      have hread := Prod.ext (y := (some v, n)) hv htaken
      obtain ⟨hlow, hhigh, rfl⟩ | ⟨hlow, hhigh, rfl⟩ | ⟨hlow, hhigh, rfl⟩ := Lead.ofByte?_cases hlead
      · obtain ⟨b₁, rest₁, n₁, rfl, rfl, hb₁, hread⟩ := continuation_succ_eq_some hread
        obtain ⟨hvalue, rfl⟩ := continuation_zero_eq_some hread
        dsimp only at hb₁ hvalue
        exact utf8EncodeChar_two (by omega) (by omega) (by omega) (by omega)
      · obtain ⟨b₁, rest₁, n₁, rfl, rfl, ⟨hlow₁, hhigh₁⟩, hread⟩ := continuation_succ_eq_some hread
        obtain ⟨b₂, rest₂, n₂, rfl, rfl, hb₂, hread⟩ := continuation_succ_eq_some hread
        obtain ⟨hvalue, rfl⟩ := continuation_zero_eq_some hread
        dsimp only at hlow₁ hhigh₁ hvalue
        -- The bounds leave out long forms of short sequences, and surrogates.
        have hrange : 0x800 ≤ v ∧ v < 0x10000 ∧ (v < 0xd800 ∨ 0xdfff < v) := by
          split at hlow₁ <;> split at hhigh₁ <;> omega
        have hb₁ : 0x80 ≤ b₁.toNat ∧ b₁.toNat ≤ 0xbf := by
          split at hlow₁ <;> split at hhigh₁ <;> omega
        exact utf8EncodeChar_three hrange.1 hrange.2.1 hrange.2.2 (by omega) (by omega) (by omega)
      · obtain ⟨b₁, rest₁, n₁, rfl, rfl, ⟨hlow₁, hhigh₁⟩, hread⟩ := continuation_succ_eq_some hread
        obtain ⟨b₂, rest₂, n₂, rfl, rfl, hb₂, hread⟩ := continuation_succ_eq_some hread
        obtain ⟨b₃, rest₃, n₃, rfl, rfl, hb₃, hread⟩ := continuation_succ_eq_some hread
        obtain ⟨hvalue, rfl⟩ := continuation_zero_eq_some hread
        dsimp only at hlow₁ hhigh₁ hvalue
        have hrange : 0x10000 ≤ v ∧ v < 0x110000 := by
          split at hlow₁ <;> split at hhigh₁ <;> omega
        have hb₁ : 0x80 ≤ b₁.toNat ∧ b₁.toNat ≤ 0xbf := by
          split at hlow₁ <;> split at hhigh₁ <;> omega
        exact utf8EncodeChar_four hrange.1 hrange.2 (by omega) (by omega) (by omega) (by omega)

/-- Bytes that can be read are those of the characters that are read. -/
theorem flatMap_utf8EncodeChar_of_scan {bs : Bytes} (h : (scan bs).all Option.isSome = true) :
    ((scan bs).filterMap id).flatMap String.utf8EncodeChar = bs := by
  induction bs using scan_induction with
  | nil =>
      rw [scan_nil]
      rfl
  | cons b rest ih =>
      rw [scan_cons, List.all_cons, Bool.and_eq_true] at h
      obtain ⟨c, hc⟩ := Option.isSome_iff_exists.mp h.1
      have hbytes := utf8EncodeChar_of_next (Prod.ext hc rfl)
      rw [scan_cons, hc, List.filterMap_cons_some (f := id) rfl, List.flatMap_cons, ih h.2, hbytes,
        List.cons_append, List.take_append_drop]

/-- Exactly the bytes of a text are read as it. -/
theorem decode?_eq_some_iff {bs : Bytes} {s : String} : decode? bs = some s ↔ encode s = bs := by
  constructor
  · intro h
    rw [decode?] at h
    split at h
    · next hall =>
        cases h
        rw [encode_eq_flatMap, String.toList_ofList, flatMap_utf8EncodeChar_of_scan hall]
    · cases h
  · rintro rfl
    exact decode?_encode s

end GlyphSearch.Text
