import GlyphSearch.Proofs.Members

/-!
# Extraction ends at the first violation

A member that must not be extracted ends the extraction before anything is
made for it, and nothing behind it is looked at. What has been extracted by
then is what the members before it come to when they are an archive of their
own: to extract them takes nothing of what follows them.

Which error it is follows from the member alone. An unsafe path comes before
everything else, whatever the member is.

The map of a sparse member is part of reading it, so such a member may be
found malformed, which ends the extraction in the same place.
-/

namespace GlyphSearch.Tar

open Files Text

/-! ## The members before -/

/-- Members with all their data, and nothing behind the last one. -/
def IsMembers (content : Bytes) : Prop :=
  ∃ r, Reader.Passes (.ofSource (.ofBytes content)) r ∧ r.pending = r.source.content.length

/-- Whatever follows whole members, they either come to the same or fail in the
same way. -/
theorem extractPlain_of_isMembers {good : Bytes} (hgood : IsMembers good) (t : Tree)
    (destination : Route) :
    (∃ p, ∀ more, extractPlain t destination (good ++ more) =
      extractRest destination p (.ofBytesAt good.length more)) ∨
    ∃ p e, ∀ more, extractPlain t destination (good ++ more) = (p, .error e) := by
  obtain ⟨r, hpasses, hpending⟩ := hgood
  have hending : r.source.ending = .clean := hpasses.ending_eq
  have hposition : r.position + r.source.content.length = 0 + good.length := hpasses.position_eq
  have hskip : ∀ more, (r.followedBy (.ofBytes more)).skip =
      .ok (.ofBytesAt good.length more) := by
    intro more
    refine Reader.skip_eq_ok.mpr ⟨?_, ?_⟩
    · simp only [Reader.followedBy, Source.followedBy, List.length_append]
      omega
    · simp only [Reader.ofBytesAt, Reader.followedBy, Source.followedBy, Source.drop,
        Source.ofBytes, hpending, List.drop_left, Reader.mk.injEq, true_and]
      omega
  have hread : ∀ more, extractPlain t destination (good ++ more) = extractRest destination
      ⟨t, 0, 0, 0, 0⟩ ((Reader.ofSource (.ofBytes good)).followedBy (.ofBytes more)) :=
    fun more => extractSource_eq t destination (.ofBytes (good ++ more))
  obtain ⟨q, hq⟩ | ⟨q, e, hq⟩ :=
    extractRest_of_passes hpasses (Nat.le_of_eq hpending) destination ⟨t, 0, 0, 0, 0⟩
  · refine .inl ⟨q, fun more => ?_⟩
    rw [hread, hq, extractRest_of_skip (hskip more)]
  · exact .inr ⟨q, e, fun more => (hread more).trans (hq _)⟩

theorem extractPlain_append {t : Tree} {destination : Route} {good : Bytes} {p : Progress}
    (hgood : IsMembers good) (hok : extractPlain t destination good = (p, .ok ()))
    (more : Bytes) : extractPlain t destination (good ++ more) =
      extractRest destination p (.ofBytesAt good.length more) := by
  rw [← List.append_nil good] at hok
  obtain ⟨q, hq⟩ | ⟨q, e, hq⟩ := extractPlain_of_isMembers hgood t destination
  · -- Alone, the members end where the bytes do.
    rw [hq, extractRest_of_none rfl] at hok
    cases hok
    exact hq more
  · rw [hq] at hok
    cases hok

/-! ## Up to the end of a header

Reading a member takes nothing of what follows its header, unless the member
is sparse. -/

/-- The first `n` bytes of a source. -/
def Source.upTo (n : Nat) (s : Source) : Source := { s with content := s.content.take n }

def Reader.upTo (n : Nat) (r : Reader) : Reader := { r with source := r.source.upTo n }

def RawMember.upTo (n : Nat) (m : RawMember) : RawMember := { m with reader := m.reader.upTo n }

def Member.upTo (n : Nat) (m : Member) : Member := { m with reader := m.reader.upTo n }

theorem Source.drop_upTo (s : Source) (n k : Nat) :
    (s.upTo n).drop k = (s.drop k).upTo (n - k) := by
  rw [drop, drop, upTo, upTo, List.drop_take]

namespace Reader

theorem skip_upTo {r r' : Reader} {n : Nat} (h : r.skip = .ok r') (hn : r.pending ≤ n) :
    (r.upTo n).skip = .ok (r'.upTo (n - r.pending)) := by
  obtain ⟨hlong, rfl⟩ := skip_eq_ok.mp h
  refine skip_eq_ok.mpr ⟨?_, ?_⟩
  · simp only [upTo, Source.upTo, List.length_take]
    omega
  · simp only [upTo, Source.drop_upTo]

theorem rawMember_upTo (r : Reader) (h : Header) (stated : Option Nat) (n : Nat) :
    (r.upTo n).rawMember h stated = (r.rawMember h stated).map (·.upTo (n - blockSize)) := by
  rw [rawMember, rawMember]
  split
  · rfl
  · split
    · rfl
    · simp only [upTo, Source.drop_upTo]
      split
      · simp only [Except.map]
      · simp only [Except.map, RawMember.upTo, upTo]

theorem position_of_nextRaw {r : Reader} {stated : Option Nat} {m : RawMember}
    (h : r.nextRaw stated = .ok (some m)) :
    m.reader.position = r.position + r.pending + blockSize := by
  obtain ⟨r', header, hskip, -, -, hm⟩ := nextRaw_eq_some.mp h
  obtain ⟨-, rfl⟩ := skip_eq_ok.mp hskip
  rw [(rawMember_eq_ok hm).2]

theorem nextRaw_upTo {r : Reader} {stated : Option Nat} {m : RawMember} {n : Nat}
    (h : r.nextRaw stated = .ok (some m)) (hn : m.reader.position ≤ r.position + n) :
    (r.upTo n).nextRaw stated =
      .ok (some (m.upTo (r.position + n - m.reader.position))) := by
  have hposition := position_of_nextRaw h
  obtain ⟨r', header, hskip, hblock, hzero, hm⟩ := nextRaw_eq_some.mp h
  obtain ⟨hlong, rfl⟩ := nextBlock_eq_some.mp hblock
  refine nextRaw_eq_some.mpr ⟨_, _, skip_upTo hskip (by omega), nextBlock_eq_some.mpr ⟨?_, rfl⟩, ?_⟩
  · simp only [upTo, Source.upTo, List.length_take]
    omega
  · have hsame : (r'.upTo (n - r.pending)).source.content.take blockSize =
        r'.source.content.take blockSize := by
      rw [upTo, Source.upTo, List.take_take, Nat.min_eq_left (by omega)]
    have hleft : n - r.pending - blockSize = r.position + n - m.reader.position := by omega
    rw [hsame, rawMember_upTo, hm, hleft]
    exact ⟨hzero, rfl⟩

end Reader

namespace RawMember

theorem data_upTo {m : RawMember} {n : Nat} (h : m.size ≤ m.reader.source.content.length)
    (hn : m.size ≤ n) : (m.upTo n).data = m.data := by
  have hlong : m.size ≤ (m.reader.source.content.take n).length := by
    rw [List.length_take]
    exact Nat.le_min.mpr ⟨hn, h⟩
  simp only [data, upTo, Reader.upTo, Source.upTo, Nat.not_lt.mpr h, Nat.not_lt.mpr hlong,
    false_and, if_false, List.take_take, Nat.min_eq_left hn]

theorem note_upTo {m : RawMember} {d : Description} {found : Member}
    (h : m.note d = .ok (.inr found)) (hkind : found.kind ≠ .sparse) (n : Nat) :
    (m.upTo n).note d = .ok (.inr (found.upTo n)) := by
  have hfound := note_eq_inr h
  rw [hfound] at hkind ⊢
  obtain ⟨known, add, -, hnote⟩ | hnote := note_cases m.header d
  · rw [hnote m rfl] at h
    obtain ⟨told, -, heq⟩ := map_eq_ok.mp h
    cases heq
  · have hdescribe : (m.upTo n).describe d =
        .ok ⟨m.header.kind, m.path d, m.size, m.reader.upTo n⟩ :=
      if_neg fun hbad => hkind hbad.1
    rw [hnote (m.upTo n) rfl, hdescribe]
    rfl

theorem note_upTo_of_describes {m : RawMember} {d d' : Description} {n : Nat}
    (h : m.note d = .ok (.inl d')) (hlong : m.size ≤ m.reader.source.content.length)
    (hn : m.size ≤ n) : (m.upTo n).note d = .ok (.inl d') := by
  obtain ⟨known, add, -, hnote⟩ | hnote := note_cases m.header d
  · rw [hnote m rfl] at h
    rw [hnote (m.upTo n) rfl, tell, data_upTo hlong hn]
    exact h
  · rw [hnote m rfl] at h
    obtain ⟨found, -, heq⟩ := map_eq_ok.mp h
    cases heq

end RawMember

namespace Reader

theorem position_le_of_nextMemberFrom {d : Description} {fuel : Nat} {r : Reader} {m : Member}
    (h : r.nextMemberFrom d fuel = .ok (some m)) :
    r.position + r.pending ≤ m.reader.position := by
  induction fuel generalizing d r with
  | zero => cases h
  | succ fuel ih =>
      obtain ⟨raw, hraw, hfound | ⟨d', -, hrest⟩⟩ := nextMemberFrom_eq_some h
      · have hposition := position_of_nextRaw hraw
        rw [RawMember.note_eq_inr hfound]
        dsimp only
        omega
      · have hposition := position_of_nextRaw hraw
        have hle := ih hrest
        omega

theorem nextMemberFrom_upTo {d : Description} {fuel : Nat} {r : Reader} {m : Member} {n : Nat}
    (h : r.nextMemberFrom d fuel = .ok (some m)) (hkind : m.kind ≠ .sparse)
    (hn : m.reader.position ≤ r.position + n) :
    (r.upTo n).nextMemberFrom d fuel =
      .ok (some (m.upTo (r.position + n - m.reader.position))) := by
  induction fuel generalizing d r n with
  | zero => cases h
  | succ fuel ih =>
      obtain ⟨raw, hraw, hfound | ⟨d', hnote, hrest⟩⟩ := nextMemberFrom_eq_some h
      · have hreader : m.reader = raw.reader := by rw [RawMember.note_eq_inr hfound]
        rw [hreader] at hn ⊢
        rw [nextMemberFrom_succ, nextRaw_upTo hraw hn]
        exact bind_eq_ok.mpr ⟨_, rfl,
          bind_eq_ok.mpr ⟨_, RawMember.note_upTo hfound hkind _, rfl⟩⟩
      · have hle := position_le_of_nextMemberFrom hrest
        have hsize := size_le_pending_of_nextRaw hraw
        have hlong := Nat.le_trans hsize (pending_le_of_nextMemberFrom hrest)
        have hnext := ih (n := r.position + n - raw.reader.position) hrest (by omega)
        have hnote' := RawMember.note_upTo_of_describes
          (n := r.position + n - raw.reader.position) hnote hlong (by omega)
        have hleft : raw.reader.position + (r.position + n - raw.reader.position) =
            r.position + n := by omega
        rw [hleft] at hnext
        rw [nextMemberFrom_succ, nextRaw_upTo hraw (by omega)]
        exact bind_eq_ok.mpr ⟨_, rfl, bind_eq_ok.mpr ⟨_, hnote', hnext⟩⟩

/-- A member that is not sparse is read from the bytes up to the end of its
header. -/
theorem nextMember_upTo_of_le {r : Reader} {m : Member} {n : Nat}
    (h : r.nextMember = .ok (some m)) (hkind : m.kind ≠ .sparse)
    (hn : m.reader.position ≤ r.position + n) :
    (r.upTo n).nextMember = .ok (some (m.upTo (r.position + n - m.reader.position))) := by
  rw [← nextMemberFrom_upTo h hkind hn]
  refine nextMemberFrom_congr (by omega) ?_
  simp only [upTo, Source.upTo, List.length_take]
  omega

theorem nextMember_upTo {r : Reader} {m : Member} (h : r.nextMember = .ok (some m))
    (hkind : m.kind ≠ .sparse) :
    (r.upTo (m.reader.position - r.position)).nextMember = .ok (some (m.upTo 0)) := by
  have hle := position_le_of_nextMemberFrom h
  have hread := nextMember_upTo_of_le (n := m.reader.position - r.position) h hkind (by omega)
  have hleft : r.position + (m.reader.position - r.position) - m.reader.position = 0 := by omega
  rwa [hleft] at hread

end Reader

/-! ## Violations -/

/-- A path that begins with a slash of either kind or leads up. -/
def IsUnsafe (raw : Path) : Prop :=
  isSafe (decodeLossy raw).toList = false ∨ raw.isAbsolute = true ∨ dotDot ∈ raw.components

/-- What must not be extracted, and the error that reports it. -/
inductive Violates (kind : Kind) (path : Path) : Error → Prop
  | unsafePath (hkind : kind.isMetadata = false) (hpath : IsUnsafe path) :
      Violates kind path (.unsafeMember (decodeLossy path))
  | unsupported (hkind : kind.isMetadata = false) (hpath : ¬ IsUnsafe path)
      (hdirectory : kind ≠ .directory) (hregular : kind ≠ .regular) :
      Violates kind path (.unsupportedMember (decodeLossy path) kind.name)
  | nameless (hkind : kind = .regular) (hpath : ¬ IsUnsafe path)
      (hname : path.components = []) :
      Violates kind path (.archive (.emptyPath (decodeLossy path)))

theorem memberRoute_of_isUnsafe {raw : Path} (h : IsUnsafe raw) :
    memberRoute raw = .error (.unsafeMember (decodeLossy raw)) := by
  rw [memberRoute]
  obtain htext | hbytes := h
  · exact if_pos (by simp [htext])
  · rw [if_pos hbytes]
    exact ite_self _

theorem memberRoute_of_not_isUnsafe {raw : Path} (h : ¬ IsUnsafe raw) :
    memberRoute raw = .ok raw.components := by
  simp only [IsUnsafe, not_or, Bool.not_eq_false] at h
  obtain ⟨htext, habsolute, hup⟩ := h
  rw [memberRoute, if_neg (by simp [htext]), if_neg (not_or.mpr ⟨habsolute, hup⟩)]

theorem extractMember_of_violates {m : Member} {e : Error} (h : Violates m.kind m.path e)
    (p : Progress) (destination : Route) : extractMember p destination m = (p, .error e) := by
  rw [extractMember]
  cases h with
  | unsafePath hkind hpath =>
      rw [if_neg (by simp [hkind]), memberRoute_of_isUnsafe hpath]
  | unsupported hkind hpath hdirectory hregular =>
      rw [if_neg (by simp [hkind]), memberRoute_of_not_isUnsafe hpath]
      dsimp only
      split
      · next heq => exact absurd heq hdirectory
      · next heq => exact absurd heq hregular
      · rfl
  | nameless hkind hpath hname =>
      rw [hkind, if_neg (by decide), memberRoute_of_not_isUnsafe hpath, hname]
      rfl

theorem extractPlain_of_violates {t : Tree} {destination : Route} {good front : Bytes}
    {p : Progress} {m : Member} {e : Error} (hgood : IsMembers good)
    (hok : extractPlain t destination good = (p, .ok ()))
    (hm : (Reader.ofBytesAt good.length front).nextMember = .ok (some m))
    (hbad : Violates m.kind m.path e) (rest : Bytes) :
    extractPlain t destination (good ++ (front ++ rest)) = (p, .error e) := by
  have hm' : (Reader.ofBytesAt good.length (front ++ rest)).nextMember =
      .ok (some (m.followedBy (.ofBytes rest))) :=
        Reader.nextMember_followedBy hm (.ofBytes rest)
  have hbad' : extractMember p destination (m.followedBy (.ofBytes rest)) = (p, .error e) :=
    extractMember_of_violates (m := m.followedBy (.ofBytes rest)) hbad p destination
  rw [extractPlain_append hgood hok, extractRest_of_some hm', hbad']
  rfl

/-- Extraction of members that are followed by a violation ends there, with the
error of that member. It leaves what the members before it have come to, and
does not depend on anything behind its header, or, if it is sparse, behind the
map that its reading takes. Where the next member cannot be read, the archive
is malformed, and the same is left. -/
theorem extraction_ends_at_first_violation {t : Tree} {destination : Route} {good : Bytes}
    {p : Progress} (hgood : IsMembers good)
    (hok : extractPlain t destination good = (p, .ok ())) :
    (∀ front m e, (Reader.ofBytesAt good.length front).nextMember = .ok (some m) →
      Violates m.kind m.path e → ∀ rest,
        extractPlain t destination (good ++ (front ++ rest)) = (p, .error e) ∧
        (m.kind ≠ .sparse → extractPlain t destination
          (good ++ (front.take (m.reader.position - good.length) ++ rest)) = (p, .error e))) ∧
    ∀ rest e, (Reader.ofBytesAt good.length rest).nextMember = .error e →
      extractPlain t destination (good ++ rest) = (p, .error malformed) := by
  constructor
  · intro front m e hm hbad rest
    refine ⟨extractPlain_of_violates hgood hok hm hbad rest, fun hkind => ?_⟩
    have hheader : (Reader.ofBytesAt good.length
        (front.take (m.reader.position - good.length))).nextMember = .ok (some (m.upTo 0)) :=
      Reader.nextMember_upTo hm hkind
    exact extractPlain_of_violates hgood hok hheader hbad rest
  · intro rest e hfault
    rw [extractPlain_append hgood hok, extractRest_of_error hfault,
      Reader.nextMember_eq_error hfault]

/-- The block of a header whose member has no data, given its check and what
follows the type. -/
def emptyHeader (name check : String) (type : Char) (more : Bytes) : Header :=
  ⟨bytes name ++ List.replicate (124 - name.length) 0 ++ byte '0' :: List.replicate 23 0
    ++ bytes check ++ List.replicate (8 - check.length) 0
    ++ byte type :: more ++ List.replicate (355 - more.length) 0⟩

/-- The number that a field writes in ASCII digits. -/
def digitsOf (field : Bytes) : Option Nat :=
  octalDigits? (dropPlus (trim ((beforeZero field).map char)))

theorem octal?_eq_digitsOf {field : Bytes} (h : ∀ b ∈ field, b.toNat < 0x80) :
    octal? field = digitsOf field :=
  octal?_of_ascii fun b hb => h b ((List.takeWhile_prefix _).subset hb)

theorem number?_eq_digitsOf {field : Bytes} (h : ∀ b ∈ field, b.toNat < 0x80) :
    number? field = digitsOf field := by
  have hfirst : ¬ 0x80 ≤ field.getD 0 0 := by
    cases field with
    | nil => decide
    | cons b rest => exact fun hle => absurd (h b List.mem_cons_self) (Nat.not_lt.mpr hle)
  rw [number?, if_neg hfirst, octal?_eq_digitsOf h]

/-- To decide it, it is enough to look at the bytes that are there. -/
theorem ascii_of_all {bs : Bytes} (h : (bs.all fun b => b.toNat < 0x80) = true) :
    ∀ b ∈ bs, b.toNat < 0x80 := fun b hb => of_decide_eq_true (List.all_eq_true.mp h b hb)

theorem isHeader_of_digits {h : Header} (hlength : h.block.length = blockSize)
    (hzero : h.isZero = false) (hascii : ∀ b ∈ h.field 148 8 ++ h.field 124 12, b.toNat < 0x80)
    (hsum : (digitsOf (h.field 148 8)).map (· % Nat.pow 2 32) = some h.sum)
    (hsize : digitsOf (h.field 124 12) = some 0) : h.IsHeader 0 where
  length_eq := hlength
  isZero_eq := hzero
  check_eq := by
    rw [Header.check?, octal?_eq_digitsOf fun b hb => hascii b (List.mem_append_left _ hb)]
    exact hsum
  size_eq := by
    rw [Header.size?, number?_eq_digitsOf fun b hb => hascii b (List.mem_append_right _ hb)]
    exact hsize

theorem decodeLossy_parent : decodeLossy (bytes "../x") = "../x" := by
  rw [decodeLossy_of_ascii (ascii_of_all (by decide))]
  decide

theorem isUnsafe_parent : IsUnsafe (bytes "../x") := by
  rw [IsUnsafe, decodeLossy_parent]
  decide

/-- A directory, and behind it a file with a path that leads up. -/
theorem extraction_ends_at_first_violation_of_parent :
    let good := (emptyHeader "a" "706" '5' []).block
    let front := (emptyHeader "../x" "1143" '0' []).block
    let destination : Route := [bytes "out"]
    let t : Tree := ⟨[(destination, .directory)]⟩
    let p : Progress := ⟨t.set [bytes "out", bytes "a"] .directory, 0, 1, 0, 1⟩
    IsMembers good ∧ extractPlain t destination good = (p, .ok ()) ∧
    extractPlain t destination (good ++ (front ++ bytes "rest")) =
      (p, .error (.unsafeMember "../x")) := by
  intro good front destination t p
  have hdirectory : (emptyHeader "a" "706" '5' []).IsHeader 0 :=
    isHeader_of_digits (by decide +kernel) (by decide +kernel) (ascii_of_all (by decide +kernel))
      (by decide +kernel) (by decide +kernel)
  have hparent : (emptyHeader "../x" "1143" '0' []).IsHeader 0 :=
    isHeader_of_digits (by decide +kernel) (by decide +kernel) (ascii_of_all (by decide +kernel))
      (by decide +kernel) (by decide +kernel)
  have hfirst : (Reader.ofSource (.ofBytes good)).nextMember =
      .ok (some ⟨.directory, bytes "a", 0, ⟨.ofBytes [], 0, 512⟩⟩) := by
    have hread := Reader.nextMember_of_isHeader hdirectory (by decide +kernel)
      0 (by decide +kernel) []
    rw [List.append_nil] at hread
    exact hread
  have hgood : IsMembers good := ⟨_, .member hfirst (.here _), rfl⟩
  have hok : extractPlain t destination good = (p, .ok ()) := by
    have hroute : memberRoute (bytes "a") = .ok [bytes "a"] := by
      rw [memberRoute_of_not_isUnsafe]
      · exact congrArg Except.ok (by decide +kernel)
      · rw [IsUnsafe, decodeLossy_of_ascii (ascii_of_all (by decide +kernel))]
        decide +kernel
    have hmade : extractMember ⟨t, 0, 0, 0, 0⟩ destination
        ⟨.directory, bytes "a", 0, ⟨.ofBytes [], 0, 512⟩⟩ = (p, .ok ()) := by
      rw [extractMember, if_neg (by decide +kernel), hroute]
      rfl
    rw [extractPlain, extractSource_eq, extractRest_of_some hfirst, hmade]
    exact extractRest_of_none rfl
  have hlength : good.length = 512 := by decide +kernel
  have hfits : good.length + blockSize + fillUp 0 < sizeLimit := by
    rw [hlength]
    decide +kernel
  have hsecond := Reader.nextMember_of_isHeader hparent (by decide +kernel) good.length hfits []
  rw [List.append_nil] at hsecond
  have hbad : Violates .regular (bytes "../x") _ := .unsafePath (by decide +kernel) isUnsafe_parent
  rw [decodeLossy_parent] at hbad
  have hends := (extraction_ends_at_first_violation hgood hok).1 front _ _ hsecond hbad
  exact ⟨hgood, hok, (hends (bytes "rest")).1⟩

/-- The header of a sparse member whose path leads up, and whose map goes on
behind it. -/
def sparseHeader : Header :=
  emptyHeader "../x" "2446" 'S'
    (List.replicate 100 0 ++ bytes "ustar  " ++ List.replicate 218 0 ++ [1, byte '0'])

theorem isHeader_sparseHeader : sparseHeader.IsHeader 0 :=
  isHeader_of_digits (by decide +kernel) (by decide +kernel) (ascii_of_all (by decide +kernel))
    (by decide +kernel) (by decide +kernel)

theorem nextMember_sparseHeader (rest : Bytes) :
    (Reader.ofBytesAt 0 (sparseHeader.block ++ rest)).nextMember =
      if sparseMapIsValid sparseHeader 0 rest then
        .ok (some ⟨.sparse, bytes "../x", 0, ⟨.ofBytes rest, 0, 512⟩⟩)
      else .error malformed := by
  have hkind : sparseHeader.kind = .sparse := by decide
  have hpath : sparseHeader.path = bytes "../x" := by decide
  have hdescribes : sparseHeader.kind ∉ [.longName, .longLink, .extensions] := by
    rw [hkind]
    decide
  rw [Reader.nextMember_of_nextRaw
    (Reader.nextRaw_of_isHeader isHeader_sparseHeader (by decide) rest) hdescribes,
    RawMember.describe]
  by_cases hvalid : sparseMapIsValid sparseHeader 0 rest = true
  · rw [if_neg fun hbad => hbad.2 hvalid, if_pos hvalid, hkind, ← hpath]
    rfl
  · rw [if_pos ⟨hkind, hvalid⟩, if_neg hvalid]
    rfl

/-- Without the rest of its map a sparse member is malformed, however unsafe
its path is. It is found unsafe only if what follows the header completes the
map. -/
theorem sparse_member_malformed_before_unsafe :
    let destination : Route := [bytes "out"]
    let t : Tree := ⟨[(destination, .directory)]⟩
    sparseHeader.kind.isMetadata = false ∧ IsUnsafe sparseHeader.path ∧ IsMembers [] ∧
    extractPlain t destination [] = (⟨t, 0, 0, 0, 0⟩, .ok ()) ∧
    extractPlain t destination ([] ++ sparseHeader.block) =
      (⟨t, 0, 0, 0, 0⟩, .error (.archive .malformed)) ∧
    extractPlain t destination ([] ++ (sparseHeader.block ++ List.replicate 512 0)) =
      (⟨t, 0, 0, 0, 0⟩, .error (.unsafeMember "../x")) := by
  intro destination t
  have hgood : IsMembers [] := ⟨_, .here _, rfl⟩
  have hok : extractPlain t destination [] = (⟨t, 0, 0, 0, 0⟩, .ok ()) := rfl
  have hpath : sparseHeader.path = bytes "../x" := by decide +kernel
  refine ⟨by decide +kernel, hpath ▸ isUnsafe_parent, hgood, hok, ?_, ?_⟩
  · have hfault := nextMember_sparseHeader []
    have hmap : sparseMapIsValid sparseHeader 0 [] = false := by decide +kernel
    rw [List.append_nil, hmap] at hfault
    rw [extractPlain_append hgood hok]
    exact extractRest_of_error hfault
  · have hmember := nextMember_sparseHeader (List.replicate 512 0)
    have hreal : octal? (sparseHeader.field 483 12) = _ :=
      octal?_eq_digitsOf (ascii_of_all (by decide +kernel))
    have hmap : sparseMapIsValid sparseHeader 0 (List.replicate 512 0) = true := by
      rw [sparseMapIsValid, hreal]
      decide +kernel
    rw [hmap] at hmember
    have hbad : Violates .sparse (bytes "../x") _ := .unsafePath (by decide +kernel) isUnsafe_parent
    rw [decodeLossy_parent] at hbad
    have hends := extractPlain_of_violates hgood hok hmember hbad []
    rwa [List.append_nil] at hends

end GlyphSearch.Tar
