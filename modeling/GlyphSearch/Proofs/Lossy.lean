import GlyphSearch.Proofs.Parts
import GlyphSearch.Proofs.Refusal

/-!
# Separators in paths that are no text

A path is bytes, and to be checked as a text it is decoded, with replacement
characters where it is none. That does neither make nor hide a slash, a
backslash or a dot: such a character is one byte, the bytes of a longer
sequence are never ASCII, and what is malformed ends before the next ASCII byte.
So it is all the same whether a path is cut into its parts and these are decoded
or the decoded text is cut, and the check of the text is one of the bytes.
-/

namespace GlyphSearch.Text

/-! ## One character -/

section Continuation

variable {low high : Nat}

theorem continuation_taken_le (count value : Nat) (rest : Bytes) :
    (continuation low high count value rest).2 ≤ rest.length := by
  fun_induction continuation low high count value rest with
  | case1 => exact Nat.zero_le _
  | case2 => exact Nat.zero_le _
  | case3 low high count value b rest _ found taken heq ih =>
      rw [heq] at ih
      rw [List.length_cons]
      exact Nat.succ_le_succ ih
  | case4 => exact Nat.zero_le _

/-- An ASCII byte is not part of a longer sequence. -/
theorem continuation_append (hlow : 0x80 ≤ low) {b : UInt8} (hb : b.toNat < 0x80)
    (count value : Nat) (rest more : Bytes) :
    continuation low high count value (rest ++ b :: more) =
      continuation low high count value rest := by
  induction count generalizing low high value rest with
  | zero => rw [continuation, continuation]
  | succ count ih =>
      cases rest with
      | nil =>
          rw [List.nil_append, continuation, continuation, if_neg (by omega)]
      | cons c rest =>
          rw [List.cons_append, continuation, continuation, ih (by decide)]

theorem le_of_continuation {count value v : Nat} {rest : Bytes}
    (h : (continuation low high count value rest).1 = some v) : value * Nat.pow 64 count ≤ v := by
  induction count generalizing low high value rest with
  | zero =>
      rw [continuation] at h
      cases h
      exact Nat.le_of_eq (Nat.mul_one _)
  | succ count ih =>
      cases rest with
      | nil =>
          rw [continuation] at h
          cases h
      | cons b rest =>
          rw [continuation] at h
          split at h
          · have hmore := ih h
            calc value * Nat.pow 64 (count + 1) = value * 64 * Nat.pow 64 count := by
                  rw [Nat.pow_eq, Nat.pow_eq, Nat.pow_succ', Nat.mul_assoc]
              _ ≤ (value * 64 + (b.toNat - 0x80)) * Nat.pow 64 count :=
                Nat.mul_le_mul_right _ (Nat.le_add_right _ _)
              _ ≤ v := hmore
          · cases h

/-- The first byte that follows counts with the bound that is set for it. -/
theorem le_of_continuation_succ {count value v : Nat} {rest : Bytes}
    (h : (continuation low high (count + 1) value rest).1 = some v) :
    (value * 64 + (low - 0x80)) * Nat.pow 64 count ≤ v := by
  cases rest with
  | nil =>
      rw [continuation] at h
      cases h
  | cons b rest =>
      rw [continuation] at h
      split at h
      · next hbounds =>
          refine Nat.le_trans (Nat.mul_le_mul_right _ ?_) (le_of_continuation h)
          omega
      · cases h

end Continuation

/-- A sequence of several bytes is that of a character above ASCII. -/
theorem Lead.bounds {b : Nat} {lead : Lead} (h : Lead.ofByte? b = some lead) :
    0x80 ≤ lead.low ∧ ∃ count, lead.following = count + 1 ∧
      0x80 ≤ (lead.value * 64 + (lead.low - 0x80)) * Nat.pow 64 count := by
  -- What remains of the count and the bounds is a number for each kind of lead byte.
  have hnumbers : ∀ {lead' : Lead}, lead' = lead → 0x80 ≤ lead'.low → ∀ count,
      lead'.following = count + 1 →
      0x80 ≤ (lead'.value * 64 + (lead'.low - 0x80)) * Nat.pow 64 count →
      0x80 ≤ lead.low ∧ ∃ count, lead.following = count + 1 ∧
        0x80 ≤ (lead.value * 64 + (lead.low - 0x80)) * Nat.pow 64 count := by
    rintro _ rfl hlow count hfollowing hbound
    exact ⟨hlow, count, hfollowing, hbound⟩
  rw [ofByte?] at h
  repeat' split at h
  all_goals first
    | cases h; done
    | refine hnumbers (Option.some.inj h) ?_ _ rfl ?_
      · dsimp only
        omega
      · dsimp only [Nat.pow_eq]
        omega

/-- A character that is a byte of its own, other than the zero byte. -/
def IsAscii (c : Char) : Prop := c.toNat ≠ 0 ∧ c.toNat < 0x80

instance : DecidablePred IsAscii := fun _ => inferInstanceAs (Decidable (_ ∧ _))

theorem next_of_ascii {b : UInt8} (hb : b.toNat < 0x80) (rest : Bytes) :
    next b rest = (some (char b), 0) := if_pos hb

theorem next_taken_le (b : UInt8) (rest : Bytes) : (next b rest).2 ≤ rest.length := by
  rw [next]
  split
  · exact Nat.zero_le _
  · split
    · exact Nat.zero_le _
    · exact continuation_taken_le _ _ _

theorem next_append (b : UInt8) {c : UInt8} (hc : c.toNat < 0x80) (rest more : Bytes) :
    next b (rest ++ c :: more) = next b rest := by
  rw [next, next]
  split
  · rfl
  · split
    · rfl
    · next lead hlead => rw [continuation_append (Lead.bounds hlead).1 hc]

/-- Only an ASCII byte is read as an ASCII character. -/
theorem next_eq_ascii {b : UInt8} {rest : Bytes} {c : Char} (h : (next b rest).1 = some c)
    (hc : IsAscii c) : b.toNat < 0x80 ∧ c = char b := by
  rw [next] at h
  split at h
  · next hb =>
      cases h
      exact ⟨hb, rfl⟩
  · split at h
    · cases h
    · next lead hlead =>
        obtain ⟨-, count, hfollowing, hbound⟩ := Lead.bounds hlead
        obtain ⟨v, hv, rfl⟩ := Option.map_eq_some_iff.mp h
        rw [hfollowing] at hv
        have hle := le_of_continuation_succ hv
        obtain ⟨hzero, hsmall⟩ := hc
        -- A number that is no character's gives the zero character.
        by_cases hvalid : v.isValidChar
        · rw [Char.ofNat, dif_pos hvalid] at hsmall
          exact absurd hsmall (Nat.not_lt.mpr (Nat.le_trans hbound hle))
        · rw [Char.ofNat, dif_neg hvalid] at hzero
          exact absurd rfl hzero

/-! ## Texts -/

/-- A text is read character by character. -/
theorem scan_induction {motive : Bytes → Prop} (nil : motive [])
    (cons : ∀ b rest, motive (rest.drop (next b rest).2) → motive (b :: rest)) (bs : Bytes) :
    motive bs := by
  induction hlength : bs.length using Nat.strongRecOn generalizing bs with
  | ind length ih =>
      cases bs with
      | nil => exact nil
      | cons b rest =>
          refine cons b rest (ih _ ?_ _ rfl)
          rw [← hlength, List.length_drop, List.length_cons]
          omega

theorem scanOnto_eq (done : List (Option Char)) (bs : Bytes) :
    scanOnto done bs = scanOnto [] bs ++ done := by
  induction bs using scan_induction generalizing done with
  | nil => simp [scanOnto]
  | cons b rest ih =>
      rw [scanOnto, scanOnto]
      dsimp only
      rw [ih, ih [_], List.append_assoc]
      rfl

@[simp] theorem scan_nil : scan [] = [] := by
  rw [scan, scanOnto]
  rfl

theorem scan_cons (b : UInt8) (rest : Bytes) :
    scan (b :: rest) = (next b rest).1 :: scan (rest.drop (next b rest).2) := by
  rw [scan, scanOnto]
  dsimp only
  rw [scanOnto_eq, List.reverse_append, scan]
  rfl

/-- The characters of a text, with replacement characters. -/
def lossy (bs : Bytes) : List Char := (scan bs).map (·.getD '\ufffd')

theorem toList_decodeLossy (bs : Bytes) : (decodeLossy bs).toList = lossy bs :=
  String.toList_ofList

@[simp] theorem lossy_nil : lossy [] = [] := by
  rw [lossy, scan_nil]
  rfl

theorem lossy_cons (b : UInt8) (rest : Bytes) :
    lossy (b :: rest) = (next b rest).1.getD '\ufffd' :: lossy (rest.drop (next b rest).2) := by
  rw [lossy, scan_cons]
  rfl

theorem lossy_cons_of_ascii {b : UInt8} (hb : b.toNat < 0x80) (rest : Bytes) :
    lossy (b :: rest) = char b :: lossy rest := by
  rw [lossy_cons, next_of_ascii hb]
  rfl

/-- An ASCII byte is read by itself, whatever is before it. -/
theorem lossy_append {b : UInt8} (hb : b.toNat < 0x80) (xs ys : Bytes) :
    lossy (xs ++ b :: ys) = lossy xs ++ char b :: lossy ys := by
  induction xs using scan_induction with
  | nil => rw [List.nil_append, lossy_cons_of_ascii hb, lossy_nil, List.nil_append]
  | cons x xs ih =>
      rw [List.cons_append, lossy_cons, next_append x hb, lossy_cons,
        List.drop_append_of_le_length (next_taken_le x xs), ih, List.cons_append]

/-- An ASCII character comes from its byte. -/
theorem getD_next_eq_ascii {b : UInt8} {rest : Bytes} {c : Char}
    (h : (next b rest).1.getD '\ufffd' = c) (hc : IsAscii c) : b.toNat < 0x80 ∧ c = char b := by
  cases hnext : (next b rest).1 with
  | none =>
      rw [hnext] at h
      subst h
      exact absurd hc.2 (by decide)
  | some c' =>
      rw [hnext] at h
      subst h
      exact next_eq_ascii hnext hc

theorem mem_of_mem_lossy {bs : Bytes} {c : Char} (h : c ∈ lossy bs) (hc : IsAscii c) :
    ∃ b ∈ bs, b.toNat < 0x80 ∧ c = char b := by
  induction bs using scan_induction with
  | nil =>
      rw [lossy_nil] at h
      cases h
  | cons b rest ih =>
      rw [lossy_cons] at h
      rcases List.mem_cons.mp h with hfirst | hmore
      · obtain ⟨hb, hsame⟩ := getD_next_eq_ascii hfirst.symm hc
        exact ⟨b, List.mem_cons_self, hb, hsame⟩
      · obtain ⟨b', hb', hsame⟩ := ih hmore
        exact ⟨b', List.mem_cons_of_mem _ (List.mem_of_mem_drop hb'), hsame⟩

/-- A text of ASCII characters is that of their bytes only. -/
theorem eq_of_lossy_eq {bs : Bytes} {cs : List Char} (h : lossy bs = cs)
    (hcs : ∀ c ∈ cs, IsAscii c) : bs.map char = cs := by
  induction cs generalizing bs with
  | nil =>
      cases bs with
      | nil => rfl
      | cons b rest =>
          rw [lossy_cons] at h
          cases h
  | cons c cs ih =>
      cases bs with
      | nil =>
          rw [lossy_nil] at h
          cases h
      | cons b rest =>
          rw [lossy_cons] at h
          obtain ⟨hfirst, hrest⟩ := List.cons.inj h
          obtain ⟨hb, hsame⟩ := getD_next_eq_ascii hfirst (hcs c List.mem_cons_self)
          rw [next_of_ascii hb, List.drop_zero] at hrest
          rw [List.map_cons, ← hsame, ih hrest fun c' hc' => hcs c' (List.mem_cons_of_mem _ hc')]

/-! ## Cutting -/

section Cutting

variable {α : Type} {p q : α → Bool} {xs : List α}

theorem splitOnP_congr (h : ∀ x ∈ xs, p x = q x) : xs.splitOnP p = xs.splitOnP q := by
  induction xs with
  | nil => rfl
  | cons x xs ih =>
      rw [List.splitOnP_cons_eq_if_modifyHead, List.splitOnP_cons_eq_if_modifyHead,
        h x List.mem_cons_self, ih fun y hy => h y (List.mem_cons_of_mem _ hy)]

/-- Cutting loses nothing but the places of the cuts. -/
theorem flatten_splitOnP : (xs.splitOnP p).flatten = xs.filter fun x => !p x := by
  induction xs with
  | nil => rfl
  | cons x xs ih =>
      rw [List.splitOnP_cons_eq_if_modifyHead]
      cases hx : p x with
      | true =>
          rw [if_pos rfl, List.filter_cons_of_neg (by simp [hx]), ← ih]
          rfl
      | false =>
          obtain ⟨first, rest, hcut⟩ := List.exists_cons_of_ne_nil (List.splitOnP_ne_nil p xs)
          rw [if_neg Bool.false_ne_true, List.filter_cons_of_pos (by simp [hx]), ← ih, hcut]
          rfl

theorem mem_splitOnP {x : α} (hx : x ∈ xs) (hp : p x = false) :
    ∃ part ∈ xs.splitOnP p, x ∈ part := by
  rw [← List.mem_flatten, flatten_splitOnP]
  exact List.mem_filter.mpr ⟨hx, by simp [hp]⟩

end Cutting

theorem char_injective : Function.Injective char := fun a b h => by
  rw [← UInt8.toNat_inj, ← toNat_char, h, toNat_char]

theorem eq_byte_of_char_eq {b : UInt8} {c : Char} (hc : IsAscii c) (h : char b = c) :
    b = byte c := by
  rw [← char_byte hc.2] at h
  exact char_injective h

/-- The text of a path is cut where its bytes are, if only ASCII characters
cut. -/
theorem splitOnP_lossy {p : Char → Bool} (hp : ∀ c, p c = true → IsAscii c) (bs : Bytes) :
    (lossy bs).splitOnP p = (bs.splitOnP (fun b => p (char b))).map lossy := by
  induction hlength : bs.length using Nat.strongRecOn generalizing bs with
  | ind length ih =>
      by_cases hcut : ∃ b ∈ bs, p (char b) = true
      · obtain ⟨b, hb, hpb⟩ := hcut
        obtain ⟨xs, ys, rfl⟩ := List.append_of_mem hb
        have hascii : b.toNat < 0x80 := toNat_char b ▸ (hp _ hpb).2
        rw [List.length_append, List.length_cons] at hlength
        rw [lossy_append hascii, List.splitOnP_append_cons _ _ hpb,
          List.splitOnP_append_cons (p := fun b => p (char b)) _ _ hpb,
          ih xs.length (by omega) xs rfl, ih ys.length (by omega) ys rfl, List.map_append]
      · have hbytes : ∀ b ∈ bs, p (char b) = false :=
          fun b hb => Bool.eq_false_iff.mpr fun hpb => hcut ⟨b, hb, hpb⟩
        have hchars : ∀ c ∈ lossy bs, p c = false := by
          intro c hc
          refine Bool.eq_false_iff.mpr fun hpc => ?_
          obtain ⟨b, hb, -, rfl⟩ := mem_of_mem_lossy hc (hp c hpc)
          exact hcut ⟨b, hb, hpc⟩
        rw [List.splitOnP_eq_singleton hchars, List.splitOnP_eq_singleton hbytes]
        rfl

section Paths

open Files

variable {path : Path}

theorem lossy_eq_dots {part : Bytes} : lossy part = ['.', '.'] ↔ part = dotDot := by
  constructor
  · intro h
    have hascii : ∀ c ∈ ['.', '.'], IsAscii c := by
      intro c hc
      obtain rfl : c = '.' := by simpa using hc
      decide
    have hchars : part.map char = dotDot.map char := eq_of_lossy_eq h hascii
    exact (List.map_inj_right fun _ _ heq => char_injective heq).mp hchars
  · rintro rfl
    rw [dotDot, lossy_cons_of_ascii (by decide), lossy_cons_of_ascii (by decide), lossy_nil,
      char_byte (by decide)]

/-- The text of a path leads up where its bytes do. -/
theorem dots_mem_splitOnP_lossy {p : Char → Bool} (hp : ∀ c, p c = true → IsAscii c) :
    ['.', '.'] ∈ (lossy path).splitOnP p ↔ dotDot ∈ path.splitOnP (fun b => p (char b)) := by
  rw [splitOnP_lossy hp, List.mem_map]
  constructor
  · rintro ⟨part, hpart, hdots⟩
    rwa [← lossy_eq_dots.mp hdots]
  · intro hup
    exact ⟨dotDot, hup, lossy_eq_dots.mpr rfl⟩

theorem head?_lossy_iff {c : Char} (hc : IsAscii c) :
    (lossy path).head? = some c ↔ path.head? = some (byte c) := by
  constructor
  · intro h
    cases path with
    | nil =>
        rw [lossy_nil] at h
        cases h
    | cons b rest =>
        rw [lossy_cons] at h
        obtain ⟨-, hb⟩ := getD_next_eq_ascii (Option.some.inj h) hc
        exact congrArg some (eq_byte_of_char_eq hc hb.symm)
  · intro h
    obtain ⟨rest, rfl⟩ := List.head?_eq_some_iff.mp h
    have hbyte : (byte c).toNat < 0x80 := by
      rw [← toNat_char, char_byte hc.2]
      exact hc.2
    rw [lossy_cons_of_ascii hbyte, char_byte hc.2]
    rfl

end Paths

end GlyphSearch.Text

namespace GlyphSearch.Tar

open Files Text

/-! ## Paths of members -/

theorem isAscii_of_isSeparator {c : Char} (h : isSeparator c = true) : IsAscii c := by
  rw [isSeparator, Bool.or_eq_true, decide_eq_true_eq, decide_eq_true_eq] at h
  rcases h with rfl | rfl <;> exact ⟨by decide, by decide⟩

/-- Where there is no backslash, the slashes separate. -/
theorem isSeparator_char {b : UInt8} (h : b ≠ byte '\\') :
    isSeparator (char b) = decide (b = slash) := by
  rw [isSeparator, Bool.eq_iff_iff, Bool.or_eq_true, decide_eq_true_eq, decide_eq_true_eq,
    decide_eq_true_eq]
  constructor
  · rintro (hslash | hbackslash)
    · exact eq_byte_of_char_eq ⟨by decide, by decide⟩ hslash
    · exact absurd (eq_byte_of_char_eq ⟨by decide, by decide⟩ hbackslash) h
  · rintro rfl
    exact .inl (char_byte (by decide))

section Backslashes

variable {path : Path} (h : byte '\\' ∉ path)

include h

theorem isAbsolute_of_lossy {c : Char} (hhead : (lossy path).head? = some c)
    (hseparator : isSeparator c = true) : path.isAbsolute = true := by
  have hfirst := (head?_lossy_iff (isAscii_of_isSeparator hseparator)).mp hhead
  rw [isSeparator, Bool.or_eq_true, decide_eq_true_eq, decide_eq_true_eq] at hseparator
  rcases hseparator with rfl | rfl
  · exact decide_eq_true hfirst
  · exact absurd (List.mem_of_head? hfirst) h

theorem dotDot_mem_of_lossy (hup : ['.', '.'] ∈ (lossy path).splitOnP isSeparator) :
    dotDot ∈ path.components := by
  have hcut : path.splitOnP (fun b => isSeparator (char b)) = path.splitOnP (· = slash) :=
    splitOnP_congr fun b hb => isSeparator_char fun heq => h (heq ▸ hb)
  rw [dots_mem_splitOnP_lossy fun _ => isAscii_of_isSeparator, hcut] at hup
  exact List.mem_filter.mpr ⟨List.mem_filter.mpr ⟨hup, by decide⟩, by decide⟩

/-- A path without backslashes is unsafe only as the bytes that it is. -/
theorem isUnsafe_iff : IsUnsafe path ↔ path.isAbsolute = true ∨ dotDot ∈ path.components := by
  refine ⟨?_, .inr⟩
  rintro (hunfit | hbytes)
  · rw [toList_decodeLossy, isSafe, Bool.and_eq_false_iff, Bool.not_eq_false', Bool.not_eq_false',
      Option.any_eq_true, List.contains_iff_mem] at hunfit
    obtain ⟨c, hhead, hseparator⟩ | hup := hunfit
    · exact .inl (isAbsolute_of_lossy h hhead hseparator)
    · exact .inr (dotDot_mem_of_lossy h hup)
  · exact hbytes

end Backslashes

/-- A name that an archive can carry to any system. -/
def IsMemberName (name : Name) : Prop := IsFileName name ∧ 0 ∉ name ∧ byte '\\' ∉ name

instance : DecidablePred IsMemberName := fun _ => inferInstanceAs (Decidable (_ ∧ _))

/-- A path that names a route, with empty parts and steps on the spot wherever
it has them. -/
def Spells (path : Path) (route : Route) : Prop :=
  path.isAbsolute = false ∧ path.components = route

section Spelling

variable {path : Path} {route : Route}

/-- A byte of a path, other than those of separators and of steps on the spot,
is in one of the names. -/
theorem Spells.not_mem (h : Spells path route) {b : UInt8} (hslash : b ≠ slash)
    (hdot : b ∉ dot) (hnames : ∀ name ∈ route, b ∉ name) : b ∉ path := by
  intro hb
  obtain ⟨part, hpart, hmem⟩ := mem_splitOnP (p := (· = slash)) hb (decide_eq_false hslash)
  have hne : part ≠ [] := List.ne_nil_of_mem hmem
  have hstep : part ≠ dot := fun heq => hdot (heq ▸ hmem)
  refine hnames part ?_ hmem
  rw [← h.2]
  exact List.mem_filter.mpr ⟨List.mem_filter.mpr ⟨hpart, by simp [hne]⟩, by simp [hstep]⟩

theorem Spells.zero_not_mem (h : Spells path route) (hnames : ∀ name ∈ route, IsMemberName name) :
    0 ∉ path := h.not_mem (by decide) (by decide) fun name hname => (hnames name hname).2.1

theorem Spells.memberRoute_eq (h : Spells path route)
    (hnames : ∀ name ∈ route, IsMemberName name) : memberRoute path = .ok route := by
  have hbackslash : byte '\\' ∉ path :=
    h.not_mem (by decide) (by decide) fun name hname => (hnames name hname).2.2
  have hsafe : ¬ IsUnsafe path := by
    rw [isUnsafe_iff hbackslash, h.1, h.2]
    rintro (habsolute | hup)
    · cases habsolute
    · exact (hnames _ hup).1.2.2.2.1 rfl
  rw [memberRoute_of_not_isUnsafe hsafe, h.2]

/-- A step on the spot may come first. -/
theorem Spells.dot_slash (h : Spells path route) : Spells (dot ++ slash :: path) route := by
  refine ⟨rfl, ?_⟩
  rw [Path.components, Path.segments_append, List.filter_append]
  exact h.2

/-- The path of a directory may end in a slash. -/
theorem Spells.append_slash (h : Spells path route) (hne : path ≠ []) :
    Spells (path ++ [slash]) route := by
  refine ⟨?_, ?_⟩
  · obtain ⟨b, rest, rfl⟩ := List.exists_cons_of_ne_nil hne
    exact h.1
  · rw [Path.components, Path.segments_append, List.filter_append, ← Path.components, h.2]
    exact List.append_nil _

/-- The names of a route with slashes between them. -/
theorem spells_relativePath {route : Route} (h : ∀ name ∈ route, IsMemberName name) :
    Spells route.relativePath route := by
  have hne : ∀ name ∈ route, name ≠ [] := fun name hname => (h name hname).1.1
  have hslash : ∀ name ∈ route, slash ∉ name := fun name hname => (h name hname).1.2.1
  refine ⟨isAbsolute_relativePath hne hslash, ?_⟩
  rw [Path.components, segments_relativePath hne hslash]
  exact List.filter_eq_self.mpr fun name hname => decide_eq_true (h name hname).1.2.2.1

end Spelling

end GlyphSearch.Tar
