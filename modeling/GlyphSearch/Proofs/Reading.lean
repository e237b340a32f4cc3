import GlyphSearch.Tar.Extraction

/-!
# How headers are read

A header is read from its block, and what a member says about the next one
from its data. So both stay what they are if the source goes on with another
one, and that is what `followedBy` stands for. Only the map of a sparse member
reaches behind its header; if it is well formed, it stays so.

Each header stands behind all data of the member before it, and whatever
cannot be read is malformed.
-/

namespace GlyphSearch.Tar

/-! ## More bytes behind those that have been read -/

/-- The source that goes on with another one behind its last byte. -/
def Source.followedBy (s next : Source) : Source := ⟨s.content ++ next.content, next.ending⟩

def Reader.followedBy (r : Reader) (next : Source) : Reader :=
  { r with source := r.source.followedBy next }

def RawMember.followedBy (m : RawMember) (next : Source) : RawMember :=
  { m with reader := m.reader.followedBy next }

def Member.followedBy (m : Member) (next : Source) : Member :=
  { m with reader := m.reader.followedBy next }

theorem Source.drop_followedBy {s : Source} {n : Nat} (h : n ≤ s.content.length) (next : Source) :
    (s.followedBy next).drop n = (s.drop n).followedBy next := by
  simp only [followedBy, drop, List.drop_append_of_le_length h]

theorem blockSize_pos : 0 < blockSize := by decide

theorem le_fillUp (n : Nat) : n ≤ fillUp n := by
  simp only [fillUp, blockSize]
  omega

/-! ## One header -/

/-- What members before a member say of its size. -/
def Description.statedSize? (d : Description) : Option Nat := d.extensions >>= extendedSize?

/-- Nothing has been said. -/
def Description.nothing : Description := ⟨none, none, none⟩

/-- What a member that describes the next one tells, where nothing has been
told. -/
def RawMember.tell (m : RawMember) (known : Option Bytes) : Except Error (Option Bytes) :=
  m.data >>= once known

/-- Takes note of a member: it tells something about the next one, or it is one
that may be extracted. -/
def RawMember.note (m : RawMember) (d : Description) : Except Error (Description ⊕ Member) :=
  if ¬ m.mayDescribe then (m.describe d).map .inr
  else
    match m.header.kind with
    | .longName => (m.tell d.longName).map fun longName => .inl { d with longName }
    | .longLink => (m.tell d.longLink).map fun longLink => .inl { d with longLink }
    | .extensions => (m.tell d.extensions).map fun extensions => .inl { d with extensions }
    | _ => (m.describe d).map .inr

namespace Reader

theorem skip_eq_ok {r r' : Reader} :
    r.skip = .ok r' ↔ r.pending ≤ r.source.content.length ∧
      r' = ⟨r.source.drop r.pending, 0, r.position + r.pending⟩ := by
  rw [skip]
  split
  · next hshort => simp only [reduceCtorEq, false_iff, not_and]; omega
  · next hlong =>
      constructor
      · intro h
        cases h
        exact ⟨Nat.le_of_not_lt hlong, rfl⟩
      · rintro ⟨-, rfl⟩
        rfl

theorem nextBlock_eq_some {r : Reader} {h : Header} :
    r.nextBlock = .ok (some h) ↔
      blockSize ≤ r.source.content.length ∧ h = ⟨r.source.content.take blockSize⟩ := by
  have hpos := blockSize_pos
  rw [nextBlock]
  split
  · next hnil =>
      rw [hnil, List.length_nil]
      split <;> simp <;> omega
  · split
    · simp only [reduceCtorEq, false_iff, not_and]
      omega
    · next hlong =>
        simp only [Except.ok.injEq, Option.some.injEq]
        exact ⟨fun h => ⟨Nat.le_of_not_lt hlong, h.symm⟩, fun h => h.2.symm⟩

theorem nextBlock_eq_none {r : Reader} :
    r.nextBlock = .ok none ↔ r.source.content = [] ∧ r.source.ending = .clean := by
  rw [nextBlock]
  split
  · next hnil =>
      split
      · next hclean => exact ⟨fun _ => ⟨hnil, hclean⟩, fun _ => rfl⟩
      · next hbroken => simp [hbroken]
  · next hne =>
      split
      · simp [hne]
      · simp [hne]

theorem nextRaw_eq_some {r : Reader} {stated : Option Nat} {m : RawMember} :
    r.nextRaw stated = .ok (some m) ↔ ∃ r' h, r.skip = .ok r' ∧ r'.nextBlock = .ok (some h) ∧
      h.isZero = false ∧ r'.rawMember h stated = .ok m := by
  rw [nextRaw, bind_eq_ok]
  constructor
  · rintro ⟨r', hskip, hraw⟩
    obtain ⟨block, hblock, hraw⟩ := bind_eq_ok.mp hraw
    cases block with
    | none => cases hraw
    | some h =>
        dsimp only at hraw
        split at hraw
        · cases hraw
        · next hzero =>
            obtain ⟨m', hm', hraw⟩ := bind_eq_ok.mp hraw
            cases hraw
            exact ⟨r', h, hskip, hblock, by simpa using hzero, hm'⟩
  · rintro ⟨r', h, hskip, hblock, hzero, hm⟩
    refine ⟨r', hskip, bind_eq_ok.mpr ⟨some h, hblock, ?_⟩⟩
    simp only [hzero, hm]
    rfl

/-- Where no member is read, the bytes are at their end, or there is a block of
zeros. -/
theorem nextRaw_eq_none {r : Reader} {stated : Option Nat} :
    r.nextRaw stated = .ok none ↔ ∃ r', r.skip = .ok r' ∧
      (r'.nextBlock = .ok none ∨ ∃ h, r'.nextBlock = .ok (some h) ∧ h.isZero = true) := by
  rw [nextRaw, bind_eq_ok]
  constructor
  · rintro ⟨r', hskip, hraw⟩
    obtain ⟨block, hblock, hraw⟩ := bind_eq_ok.mp hraw
    refine ⟨r', hskip, ?_⟩
    cases block with
    | none => exact .inl hblock
    | some h =>
        dsimp only at hraw
        split at hraw
        · next hzero => exact .inr ⟨h, hblock, hzero⟩
        · obtain ⟨m', _, hraw⟩ := bind_eq_ok.mp hraw
          cases hraw
  · rintro ⟨r', hskip, hnone | ⟨h, hblock, hzero⟩⟩
    · exact ⟨r', hskip, bind_eq_ok.mpr ⟨none, hnone, rfl⟩⟩
    · refine ⟨r', hskip, bind_eq_ok.mpr ⟨some h, hblock, ?_⟩⟩
      simp only [hzero]
      rfl

theorem rawMember_eq_ok {r : Reader} {h : Header} {stated : Option Nat} {m : RawMember}
    (hm : r.rawMember h stated = .ok m) :
    m.header = h ∧
      m.reader = ⟨r.source.drop blockSize, fillUp m.size, r.position + blockSize⟩ := by
  rw [rawMember] at hm
  split at hm
  · cases hm
  · split at hm
    · cases hm
    · dsimp only at hm
      split at hm
      · cases hm
      · cases hm
        exact ⟨rfl, rfl⟩

theorem rawMember_followedBy {r : Reader} (hlong : blockSize ≤ r.source.content.length)
    (h : Header) (stated : Option Nat) (next : Source) :
    (r.followedBy next).rawMember h stated =
      (r.rawMember h stated).map (·.followedBy next) := by
  rw [rawMember, rawMember]
  split
  · rfl
  · split
    · rfl
    · simp only [followedBy, Source.drop_followedBy hlong]
      split
      · simp only [Except.map]
      · simp only [Except.map, RawMember.followedBy, followedBy]

theorem skip_followedBy {r r' : Reader} (h : r.skip = .ok r') (next : Source) :
    (r.followedBy next).skip = .ok (r'.followedBy next) := by
  obtain ⟨hlong, rfl⟩ := skip_eq_ok.mp h
  refine skip_eq_ok.mpr ⟨?_, ?_⟩
  · simp only [followedBy, Source.followedBy, List.length_append]
    omega
  · simp only [followedBy, Source.drop_followedBy hlong]

theorem nextBlock_followedBy {r : Reader} {h : Header} (hblock : r.nextBlock = .ok (some h))
    (next : Source) : (r.followedBy next).nextBlock = .ok (some h) := by
  obtain ⟨hlong, rfl⟩ := nextBlock_eq_some.mp hblock
  refine nextBlock_eq_some.mpr ⟨?_, ?_⟩
  · simp only [followedBy, Source.followedBy, List.length_append]
    omega
  · simp only [followedBy, Source.followedBy, List.take_append_of_le_length hlong]

theorem nextRaw_followedBy {r : Reader} {stated : Option Nat} {m : RawMember}
    (h : r.nextRaw stated = .ok (some m)) (next : Source) :
    (r.followedBy next).nextRaw stated = .ok (some (m.followedBy next)) := by
  obtain ⟨r', header, hskip, hblock, hzero, hm⟩ := nextRaw_eq_some.mp h
  have hlong := (nextBlock_eq_some.mp hblock).1
  refine nextRaw_eq_some.mpr ⟨_, header, skip_followedBy hskip next,
    nextBlock_followedBy hblock next, hzero, ?_⟩
  rw [rawMember_followedBy hlong, hm]
  rfl

/-- The second reader stands behind the first one in the same archive. -/
structure Behind (r r' : Reader) : Prop where
  ending_eq : r'.source.ending = r.source.ending
  length_lt : r'.source.content.length < r.source.content.length
  position_eq : r'.position + r'.source.content.length = r.position + r.source.content.length

theorem Behind.trans {r r' r'' : Reader} (h : Behind r r') (h' : Behind r' r'') : Behind r r'' :=
  ⟨h'.ending_eq.trans h.ending_eq, Nat.lt_trans h'.length_lt h.length_lt,
    h'.position_eq.trans h.position_eq⟩

theorem behind_of_nextRaw {r : Reader} {stated : Option Nat} {m : RawMember}
    (h : r.nextRaw stated = .ok (some m)) : Behind r m.reader := by
  have hpos := blockSize_pos
  obtain ⟨r', header, hskip, hblock, hzero, hm⟩ := nextRaw_eq_some.mp h
  obtain ⟨hlong, rfl⟩ := skip_eq_ok.mp hskip
  obtain ⟨hblock, -⟩ := nextBlock_eq_some.mp hblock
  obtain ⟨-, hreader⟩ := rawMember_eq_ok hm
  rw [hreader]
  simp only [Source.drop, List.length_drop] at hblock
  refine ⟨rfl, ?_, ?_⟩
  · simp only [Source.drop, List.length_drop]
    omega
  · simp only [Source.drop, List.length_drop]
    omega

theorem size_le_pending_of_nextRaw {r : Reader} {stated : Option Nat} {m : RawMember}
    (h : r.nextRaw stated = .ok (some m)) : m.size ≤ m.reader.pending := by
  obtain ⟨r', header, -, -, -, hm⟩ := nextRaw_eq_some.mp h
  rw [(rawMember_eq_ok hm).2]
  exact le_fillUp m.size

/-- A header is read only behind all data of the member before it. -/
theorem pending_le_of_nextRaw {r : Reader} {stated : Option Nat} {m : Option RawMember}
    (h : r.nextRaw stated = .ok m) : r.pending ≤ r.source.content.length := by
  obtain ⟨r', hskip, -⟩ := bind_eq_ok.mp h
  exact (skip_eq_ok.mp hskip).1

theorem nextRaw_of_skip {r r' : Reader} (h : r.skip = .ok r') (stated : Option Nat) :
    r'.nextRaw stated = r.nextRaw stated := by
  have hagain : r'.skip = .ok r' := by
    obtain ⟨-, rfl⟩ := skip_eq_ok.mp h
    exact skip_eq_ok.mpr ⟨Nat.zero_le _, rfl⟩
  rw [nextRaw, nextRaw, hagain, h]

end Reader

/-! ## What a header leads to -/

namespace RawMember

theorem data_followedBy {m : RawMember} (h : m.size ≤ m.reader.source.content.length)
    (next : Source) : (m.followedBy next).data = m.data := by
  have hlong : m.size ≤ (m.reader.source.content ++ next.content).length := by
    rw [List.length_append]
    omega
  simp only [data, followedBy, Reader.followedBy, Source.followedBy, Nat.not_lt.mpr h,
    Nat.not_lt.mpr hlong, false_and, if_false, List.take_append_of_le_length h]

end RawMember

namespace SparseMap

theorem addAll?_append {list : Bytes} {count : Nat} (h : 24 * count ≤ list.length)
    (m : SparseMap) (more : Bytes) : m.addAll? count (list ++ more) = m.addAll? count list := by
  have hsame : ∀ pieces : List Nat, (∀ i ∈ pieces, i < count) → ∀ m : SparseMap,
      pieces.foldlM (fun m i => m.add? (((list ++ more).drop (24 * i)).take 24)) m =
        pieces.foldlM (fun m i => m.add? ((list.drop (24 * i)).take 24)) m := by
    intro pieces
    induction pieces with
    | nil => exact fun _ _ => rfl
    | cons i pieces ih =>
        intro hlt m
        have hi : i < count := hlt i List.mem_cons_self
        rw [List.foldlM_cons, List.foldlM_cons, List.drop_append_of_le_length (by omega),
          List.take_append_of_le_length (by rw [List.length_drop]; omega)]
        refine bind_congr fun m' => ih (fun j hj => hlt j (List.mem_cons_of_mem _ hj)) m'
  exact hsame _ (fun i hi => List.mem_range.mp hi) m

theorem readBlocks?_append {fuel : Nat} {m m' : SparseMap} {content rest : Bytes}
    (h : m.readBlocks? fuel content = some (m', rest)) {fuel' : Nat} (hfuel : fuel ≤ fuel')
    (more : Bytes) : m.readBlocks? fuel' (content ++ more) = some (m', rest ++ more) := by
  induction fuel generalizing m content fuel' with
  | zero => cases h
  | succ fuel ih =>
      cases fuel' with
      | zero => omega
      | succ fuel' =>
          rw [readBlocks?] at h ⊢
          split at h
          · cases h
          · next hlong =>
              have hlong' : 504 < content.length := by
                simp only [blockSize] at hlong
                omega
              have hfit : ¬ (content ++ more).length < blockSize := by
                rw [List.length_append]
                omega
              have hflag : (content ++ more).getD 504 0 = content.getD 504 0 := by
                simp only [List.getD_eq_getElem?_getD, List.getElem?_append_left hlong']
              rw [if_neg hfit, addAll?_append (by omega),
                List.drop_append_of_le_length (by omega), hflag]
              obtain ⟨m₁, hm₁, h⟩ := Option.bind_eq_some_iff.mp h
              refine Option.bind_eq_some_iff.mpr ⟨m₁, hm₁, ?_⟩
              dsimp only at h ⊢
              split at h
              · next hmore =>
                  rw [if_pos hmore]
                  exact ih h (by omega)
              · next hlast =>
                  rw [if_neg hlast]
                  cases h
                  rfl

end SparseMap

theorem getD_false_eq_true {o : Option Bool} : o.getD false = true ↔ o = some true := by
  cases o <;> simp

/-- A map that is well formed stays so whatever follows it. -/
theorem sparseMapIsValid_append {h : Header} {size : Nat} {content : Bytes}
    (hvalid : sparseMapIsValid h size content = true) (more : Bytes) :
    sparseMapIsValid h size (content ++ more) = true := by
  rw [sparseMapIsValid, Bool.and_eq_true, getD_false_eq_true] at hvalid ⊢
  obtain ⟨hextended, hmap⟩ := hvalid
  refine ⟨hextended, ?_⟩
  obtain ⟨m, hm, hmap⟩ := Option.bind_eq_some_iff.mp hmap
  refine Option.bind_eq_some_iff.mpr ⟨m, hm, ?_⟩
  dsimp only at hmap ⊢
  split at hmap
  · next hflag =>
      have hlong : content.length + 1 ≤ (content ++ more).length + 1 := by simp
      obtain ⟨⟨m', rest⟩, hm', hmap⟩ := Option.bind_eq_some_iff.mp hmap
      rw [if_pos hflag]
      exact Option.bind_eq_some_iff.mpr ⟨_, SparseMap.readBlocks?_append hm' hlong more, hmap⟩
  · next hflag =>
      rw [if_neg hflag]
      exact hmap

namespace RawMember

theorem describe_followedBy {m : RawMember} {d : Description} {found : Member}
    (h : m.describe d = .ok found) (next : Source) :
    (m.followedBy next).describe d = .ok (found.followedBy next) := by
  rw [describe] at h ⊢
  split at h
  · cases h
  · next hmap =>
      have hmap' : ¬ ((m.followedBy next).header.kind = .sparse ∧
          ¬ sparseMapIsValid (m.followedBy next).header (m.followedBy next).size
            (m.followedBy next).reader.source.content) := by
        rintro ⟨hkind, hbad⟩
        refine hmap ⟨hkind, fun hvalid => hbad ?_⟩
        exact sparseMapIsValid_append hvalid next.content
      rw [if_neg hmap']
      cases h
      rfl

theorem describe_eq_ok {m : RawMember} {d : Description} {found : Member}
    (h : m.describe d = .ok found) : found = ⟨m.header.kind, m.path d, m.size, m.reader⟩ := by
  rw [describe] at h
  split at h
  · cases h
  · cases h
    rfl

theorem tell_isSome {m : RawMember} {known told : Option Bytes} (h : m.tell known = .ok told) :
    told.isSome := by
  obtain ⟨data, -, h⟩ := bind_eq_ok.mp h
  cases known with
  | some _ => cases h
  | none =>
      cases h
      rfl

/-- Whether a member describes the next one or may be extracted is up to its
header alone. -/
theorem note_cases (h : Header) (d : Description) :
    (∃ (known : Option Bytes) (add : Option Bytes → Description),
      (∀ told, told.isSome → add told ≠ .nothing) ∧
      ∀ m : RawMember, m.header = h → m.note d = (m.tell known).map fun told => .inl (add told)) ∨
    ∀ m : RawMember, m.header = h → m.note d = (m.describe d).map .inr := by
  by_cases hmay : (h.isStandard || h.isExtended) = true
  · have hnote : ∀ m : RawMember, m.header = h → m.mayDescribe = true := by
      rintro m rfl
      exact hmay
    cases hkind : h.kind with
    | longName =>
        refine .inl ⟨d.longName, fun longName => { d with longName }, ?_, ?_⟩
        · rintro told htold heq
          have hnone : told = none := congrArg Description.longName heq
          rw [hnone] at htold
          cases htold
        · intro m hm
          rw [note, hnote m hm, hm, hkind]
          rfl
    | longLink =>
        refine .inl ⟨d.longLink, fun longLink => { d with longLink }, ?_, ?_⟩
        · rintro told htold heq
          have hnone : told = none := congrArg Description.longLink heq
          rw [hnone] at htold
          cases htold
        · intro m hm
          rw [note, hnote m hm, hm, hkind]
          rfl
    | extensions =>
        refine .inl ⟨d.extensions, fun extensions => { d with extensions }, ?_, ?_⟩
        · rintro told htold heq
          have hnone : told = none := congrArg Description.extensions heq
          rw [hnone] at htold
          cases htold
        · intro m hm
          rw [note, hnote m hm, hm, hkind]
          rfl
    | regular | link | symbolicLink | characterDevice | blockDevice | directory | fifo
    | continuous | globalExtensions | sparse | other type =>
        right
        intro m hm
        rw [note, hnote m hm, hm, hkind]
        rfl
  · right
    rintro m rfl
    exact if_pos hmay

theorem note_of_kind {m : RawMember}
    (hkind : m.header.kind ∉ [.longName, .longLink, .extensions]) (d : Description) :
    m.note d = (m.describe d).map .inr := by
  simp only [List.mem_cons, List.not_mem_nil, or_false, not_or] at hkind
  obtain ⟨hname, hlink, hextensions⟩ := hkind
  rw [note]
  split
  · rfl
  · split
    · next heq => exact absurd heq hname
    · next heq => exact absurd heq hlink
    · next heq => exact absurd heq hextensions
    · rfl

theorem note_followedBy {m : RawMember} {d : Description} {found : Member}
    (h : m.note d = .ok (.inr found)) (next : Source) :
    (m.followedBy next).note d = .ok (.inr (found.followedBy next)) := by
  obtain ⟨known, add, -, hnote⟩ | hnote := note_cases m.header d
  · rw [hnote m rfl] at h
    obtain ⟨told, -, heq⟩ := map_eq_ok.mp h
    cases heq
  · rw [hnote m rfl] at h
    rw [hnote (m.followedBy next) rfl]
    obtain ⟨found', hfound, heq⟩ := map_eq_ok.mp h
    cases heq
    exact map_eq_ok.mpr ⟨_, describe_followedBy hfound next, rfl⟩

/-- What a member tells about the next one is told by its data. -/
theorem note_followedBy_of_describes {m : RawMember} {d d' : Description}
    (h : m.note d = .ok (.inl d')) (hlong : m.size ≤ m.reader.source.content.length)
    (next : Source) : (m.followedBy next).note d = .ok (.inl d') := by
  obtain ⟨known, add, -, hnote⟩ | hnote := note_cases m.header d
  · rw [hnote m rfl] at h
    rw [hnote (m.followedBy next) rfl, tell, data_followedBy hlong]
    exact h
  · rw [hnote m rfl] at h
    obtain ⟨found, -, heq⟩ := map_eq_ok.mp h
    cases heq

theorem ne_nothing_of_note {m : RawMember} {d d' : Description} (h : m.note d = .ok (.inl d')) :
    d' ≠ .nothing := by
  obtain ⟨known, add, hadd, hnote⟩ | hnote := note_cases m.header d
  · rw [hnote m rfl] at h
    obtain ⟨told, htold, heq⟩ := map_eq_ok.mp h
    cases heq
    exact hadd told (tell_isSome htold)
  · rw [hnote m rfl] at h
    obtain ⟨found, -, heq⟩ := map_eq_ok.mp h
    cases heq

theorem note_eq_inr {m : RawMember} {d : Description} {found : Member}
    (h : m.note d = .ok (.inr found)) :
    found = ⟨m.header.kind, m.path d, m.size, m.reader⟩ := by
  obtain ⟨known, add, -, hnote⟩ | hnote := note_cases m.header d
  · rw [hnote m rfl] at h
    obtain ⟨told, -, heq⟩ := map_eq_ok.mp h
    cases heq
  · rw [hnote m rfl] at h
    obtain ⟨found', hfound, heq⟩ := map_eq_ok.mp h
    cases heq
    exact describe_eq_ok hfound

end RawMember

/-! ## Faults

An archive that cannot be read is malformed, wherever the fault is found. -/

section

variable {r : Reader} {e : Error}

theorem Reader.skip_eq_error (h : r.skip = .error e) : e = malformed := by
  rw [skip] at h
  split at h
  · cases h
    rfl
  · cases h

theorem Reader.nextBlock_eq_error (h : r.nextBlock = .error e) : e = malformed := by
  rw [nextBlock] at h
  split at h
  · split at h
    · cases h
    · cases h
      rfl
  · split at h
    · cases h
      rfl
    · cases h

theorem Reader.rawMember_eq_error {header : Header} {stated : Option Nat}
    (h : r.rawMember header stated = .error e) : e = malformed := by
  rw [rawMember] at h
  split at h
  · cases h
    rfl
  · split at h
    · cases h
      rfl
    · dsimp only at h
      split at h
      · cases h
        rfl
      · cases h

theorem Reader.nextRaw_eq_error {stated : Option Nat} (h : r.nextRaw stated = .error e) :
    e = malformed := by
  rw [nextRaw] at h
  obtain hskip | ⟨r', -, h⟩ := bind_eq_error.mp h
  · exact skip_eq_error hskip
  obtain hblock | ⟨block, -, h⟩ := bind_eq_error.mp h
  · exact nextBlock_eq_error hblock
  cases block with
  | none => cases h
  | some header =>
      dsimp only at h
      split at h
      · cases h
      · obtain hraw | ⟨m, -, h⟩ := bind_eq_error.mp h
        · exact rawMember_eq_error hraw
        · cases h

theorem once_eq_error {known : Option Bytes} {found : Bytes} (h : once known found = .error e) :
    e = malformed := by
  cases known with
  | none => cases h
  | some _ =>
      cases h
      rfl

theorem RawMember.tell_eq_error {m : RawMember} {known : Option Bytes}
    (h : m.tell known = .error e) : e = malformed := by
  obtain hdata | ⟨data, -, h⟩ := bind_eq_error.mp h
  · rw [data] at hdata
    split at hdata
    · cases hdata
      rfl
    · cases hdata
  · exact once_eq_error h

theorem RawMember.note_eq_error {m : RawMember} {d : Description} (h : m.note d = .error e) :
    e = malformed := by
  obtain ⟨known, add, -, hnote⟩ | hnote := note_cases m.header d
  · rw [hnote m rfl, map_eq_error] at h
    exact tell_eq_error h
  · rw [hnote m rfl, map_eq_error, describe] at h
    split at h
    · cases h
      rfl
    · cases h

end

end GlyphSearch.Tar
