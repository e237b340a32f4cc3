import GlyphSearch.Proofs.Encoding
import GlyphSearch.Proofs.Grammar

/-!
# Texts between quotes

Every text is written between quotes as a string of the grammar, and read back
from it. Both are seen character by character: what stands for a character
leaves a literal a literal, and reading it puts the bytes of the character
behind those that are there. There are three kinds of characters: those that
stand for themselves, those with an escape of two characters, and the other
control characters with an escape of six.
-/

namespace GlyphSearch.Text

theorem le_of_mem_utf8EncodeChar {c : Char} (h : 0x80 ≤ c.toNat) :
    ∀ b ∈ String.utf8EncodeChar c, 0x80 ≤ b.toNat := by
  have h : 0x80 ≤ c.val.toNat := h
  have hbyte : ∀ n, 0x80 ≤ n → n < 0x100 → 0x80 ≤ (UInt8.ofNat n).toNat := by
    intro n hlow hhigh
    rwa [UInt8.toNat_ofNat_of_lt' hhigh]
  rw [String.utf8EncodeChar]
  generalize c.val.toNat = v at h ⊢
  split
  · omega
  split
  · simp only [List.forall_mem_cons]
    exact ⟨hbyte _ (by omega) (by omega), hbyte _ (by omega) (by omega),
      fun _ hb => absurd hb List.not_mem_nil⟩
  split
  · simp only [List.forall_mem_cons]
    exact ⟨hbyte _ (by omega) (by omega), hbyte _ (by omega) (by omega),
      hbyte _ (by omega) (by omega), fun _ hb => absurd hb List.not_mem_nil⟩
  · simp only [List.forall_mem_cons]
    exact ⟨hbyte _ (by omega) (by omega), hbyte _ (by omega) (by omega),
      hbyte _ (by omega) (by omega), hbyte _ (by omega) (by omega),
      fun _ hb => absurd hb List.not_mem_nil⟩

end GlyphSearch.Text

namespace GlyphSearch.Json

open Text

/-- The bytes that stand for a character between quotes. -/
def escaped (c : Char) : Bytes := (escapeChar c).flatMap String.utf8EncodeChar

theorem encode_escape (s : String) : encode (escape s) = s.toList.flatMap escaped := by
  rw [encode_eq_flatMap, escape, String.toList_ofList, List.flatMap_assoc]
  rfl

/-- Whether bytes stand for a character between quotes, whatever follows. -/
structure StandsFor (bs : Bytes) (c : Char) : Prop where
  literal {rest : Bytes} (h : IsLiteral rest) : IsLiteral (bs ++ rest)
  unescape (done rest : Bytes) :
    unescapeOnto done (bs ++ rest) = unescapeOnto ((String.utf8EncodeChar c).reverse ++ done) rest

theorem standsFor_plain {c : Char} (h : (String.utf8EncodeChar c).all isPlain) :
    StandsFor (String.utf8EncodeChar c) c :=
  ⟨isLiteral_append h, unescapeOnto_append h⟩

theorem standsFor_short {c : Char} {e : UInt8} (hshort : isShortEscape e)
    (hc : c.toNat < 0x80) (he : shortEscape? e = some (byte c)) :
    StandsFor [byte '\\', e] c := by
  refine ⟨fun hrest => .short hshort hrest, fun done rest => ?_⟩
  have hne : e ≠ byte 'u' := by
    rintro rfl
    exact absurd hshort (by decide)
  rw [utf8EncodeChar_of_ascii hc]
  simp only [List.cons_append, List.nil_append]
  rw [unescapeOnto.eq_def]
  dsimp only
  rw [if_neg (by simp), if_pos hne, he]
  rfl

theorem standsFor_number {c : Char} (hc : c.toNat < 0x20) :
    StandsFor [byte '\\', byte 'u', byte '0', byte '0', byte (hexDigit (c.toNat / 16)),
      byte (hexDigit (c.toNat % 16))] c := by
  have hhex : ∀ n, n < 0x20 → hexNumber? [byte '0', byte '0', byte (hexDigit (n / 16)),
      byte (hexDigit (n % 16))] = some n := by decide
  have hnumber := hhex c.toNat hc
  refine ⟨fun hrest => .number (by rw [hnumber]; rfl) hrest, fun done rest => ?_⟩
  have hencode : encodeNumber c.toNat = String.utf8EncodeChar c := by
    rw [encodeNumber, Char.ofNat_toNat, encode_eq_flatMap, Char.toString, String.toList_singleton,
      List.flatMap_singleton]
  simp only [List.cons_append, List.nil_append]
  rw [unescapeOnto.eq_def]
  dsimp only
  rw [if_neg (by simp), if_neg (by simp), hnumber]
  dsimp only
  rw [if_pos (.inl (by omega)), hencode]

theorem isPlain_of_le {b : UInt8} (h : 0x80 ≤ b.toNat) : isPlain b = true := by
  refine isPlain_iff.mpr ⟨?_, ?_, fun hlt => ?_⟩
  · rintro rfl
    exact absurd h (by decide)
  · rintro rfl
    exact absurd h (by decide)
  · have hlt : b.toNat < (byte ' ').toNat := UInt8.lt_iff_toNat_lt.mp hlt
    exact absurd (Nat.lt_trans hlt (by decide)) (Nat.not_lt.mpr h)

theorem isPlain_utf8EncodeChar {c : Char} (hquote : c ≠ '"') (hescape : c ≠ '\\')
    (hcontrol : ¬ c.toNat < 0x20) : (String.utf8EncodeChar c).all isPlain := by
  by_cases hascii : c.toNat < 0x80
  · have hbyte : (byte c).toNat = c.toNat :=
      UInt8.toNat_ofNat_of_lt' (Nat.lt_trans hascii (by decide))
    have hne : ∀ d : Char, c ≠ d → d.toNat < 0x80 → byte c ≠ byte d := by
      intro d hd hsmall heq
      exact hd (eq_of_byte_eq hascii hsmall heq)
    have hlarge : ¬ byte c < byte ' ' := by
      rw [UInt8.lt_iff_toNat_lt, hbyte]
      exact hcontrol
    rw [utf8EncodeChar_of_ascii hascii, List.all_cons, List.all_nil, Bool.and_true]
    exact isPlain_iff.mpr ⟨hne _ hquote (by decide), hne _ hescape (by decide), hlarge⟩
  · exact List.all_eq_true.mpr fun b hb =>
      isPlain_of_le (le_of_mem_utf8EncodeChar (Nat.not_lt.mp hascii) b hb)

theorem standsFor_escaped (c : Char) : StandsFor (escaped c) c := by
  rw [escaped, escapeChar]
  split
  · next h => subst h; exact standsFor_short (e := byte '"') (by decide) (by decide) (by decide)
  next hquote =>
  split
  · next h => subst h; exact standsFor_short (e := byte '\\') (by decide) (by decide) (by decide)
  next hescape =>
  split
  · next h => subst h; exact standsFor_short (e := byte 'n') (by decide) (by decide) (by decide)
  split
  · next h => subst h; exact standsFor_short (e := byte 't') (by decide) (by decide) (by decide)
  split
  · next h => subst h; exact standsFor_short (e := byte 'r') (by decide) (by decide) (by decide)
  split
  · next h => subst h; exact standsFor_short (e := byte 'b') (by decide) (by decide) (by decide)
  split
  · next h => subst h; exact standsFor_short (e := byte 'f') (by decide) (by decide) (by decide)
  split
  · next hcontrol =>
      have hdigits : ∀ n, n < 0x20 → (hexDigit (n / 16)).toNat < 0x80 ∧
          (hexDigit (n % 16)).toNat < 0x80 := by decide
      obtain ⟨hhigh, hlow⟩ := hdigits _ hcontrol
      have hascii : ∀ d ∈ ['\\', 'u', '0', '0', hexDigit (c.toNat / 16),
          hexDigit (c.toNat % 16)], d.toNat < 0x80 := by
        simp only [List.forall_mem_cons]
        exact ⟨by decide, by decide, by decide, by decide, hhigh, hlow, List.forall_mem_nil _⟩
      rw [flatMap_utf8EncodeChar_of_ascii hascii]
      exact standsFor_number hcontrol
  · next hcontrol =>
      rw [List.flatMap_singleton]
      exact standsFor_plain (isPlain_utf8EncodeChar hquote hescape hcontrol)

/-- What is written between quotes is a string of the grammar. -/
theorem isLiteral_escape (s : String) : IsLiteral (encode (escape s)) := by
  rw [encode_escape]
  induction s.toList with
  | nil => exact .nil
  | cons c cs ih => exact (standsFor_escaped c).literal ih

/-- A text is read back from what is written between quotes. -/
theorem unescape?_escape (s : String) : unescape? (encode (escape s)) = some s := by
  have honto : ∀ (cs : List Char) (done : Bytes), unescapeOnto done (cs.flatMap escaped) =
      some ((cs.flatMap String.utf8EncodeChar).reverse ++ done) := by
    intro cs
    induction cs with
    | nil => intro done; rw [List.flatMap_nil, unescapeOnto.eq_def]; rfl
    | cons c cs ih =>
        intro done
        rw [List.flatMap_cons, (standsFor_escaped c).unescape, ih, List.flatMap_cons,
          List.reverse_append, List.append_assoc]
  rw [unescape?, encode_escape, honto, List.append_nil, Option.bind_eq_bind, Option.bind_some,
    List.reverse_reverse, ← encode_eq_flatMap, decode?_encode]

end GlyphSearch.Json
