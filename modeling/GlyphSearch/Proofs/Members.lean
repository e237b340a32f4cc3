import GlyphSearch.Proofs.Reading

/-!
# Member after member

The next member is found with any fuel that covers the bytes, and it stays what
it is if the source goes on with another one. `Passes` says of two readers that
the second is reached from the first over whole members.

Where no member is found and the archive is not malformed, either all bytes
have been read and end without a fault, or there is a block of zeros.

An extraction is then described without its fuel: `extractRest` extracts what
is left of an archive, that is one member and then the rest behind it. Over
whole members it does the same whatever follows them.
-/

namespace GlyphSearch.Tar

open Files

/-! ## The next member -/

namespace Reader

theorem nextMemberFrom_succ (d : Description) (fuel : Nat) (r : Reader) :
    r.nextMemberFrom d (fuel + 1) = (r.nextRaw d.statedSize?) >>= fun
      | none =>
        if d.longName.isSome ∨ d.longLink.isSome ∨ d.extensions.isSome then .error malformed
        else .ok none
      | some m => m.note d >>= fun
        | .inl d' => m.reader.nextMemberFrom d' fuel
        | .inr found => .ok (some found) := by
  rw [nextMemberFrom, Description.statedSize?]
  refine bind_congr fun raw => ?_
  cases raw with
  | none => rfl
  | some m =>
      dsimp only [RawMember.note, RawMember.tell]
      cases m.mayDescribe with
      | false => cases m.describe d <;> rfl
      | true =>
          cases m.header.kind with
          | longName =>
              cases m.data with
              | error e => rfl
              | ok data => cases d.longName <;> rfl
          | longLink =>
              cases m.data with
              | error e => rfl
              | ok data => cases d.longLink <;> rfl
          | extensions =>
              cases m.data with
              | error e => rfl
              | ok data => cases d.extensions <;> rfl
          | regular | link | symbolicLink | characterDevice | blockDevice | directory | fifo
          | continuous | globalExtensions | sparse | other type =>
              cases m.describe d <;> rfl

theorem nextMemberFrom_eq_some {d : Description} {fuel : Nat} {r : Reader} {found : Member}
    (h : r.nextMemberFrom d (fuel + 1) = .ok (some found)) :
    ∃ m, r.nextRaw d.statedSize? = .ok (some m) ∧
      (m.note d = .ok (.inr found) ∨
        ∃ d', m.note d = .ok (.inl d') ∧ m.reader.nextMemberFrom d' fuel = .ok (some found)) := by
  rw [nextMemberFrom_succ] at h
  obtain ⟨raw, hraw, h⟩ := bind_eq_ok.mp h
  cases raw with
  | none =>
      dsimp only at h
      split at h <;> cases h
  | some m =>
      obtain ⟨noted, hnoted, h⟩ := bind_eq_ok.mp h
      cases noted with
      | inl d' => exact ⟨m, hraw, .inr ⟨d', hnoted, h⟩⟩
      | inr found' =>
          cases h
          exact ⟨m, hraw, .inl hnoted⟩

/-- The next member is found with any fuel that covers the bytes. -/
theorem nextMemberFrom_congr {d : Description} {fuel fuel' : Nat} {r : Reader}
    (h : r.source.content.length < fuel) (h' : r.source.content.length < fuel') :
    r.nextMemberFrom d fuel = r.nextMemberFrom d fuel' := by
  induction fuel generalizing d r fuel' with
  | zero => omega
  | succ fuel ih =>
      cases fuel' with
      | zero => omega
      | succ fuel' =>
          rw [nextMemberFrom_succ, nextMemberFrom_succ]
          refine bind_congr_of_ok fun raw hraw => ?_
          cases raw with
          | none => rfl
          | some m =>
              have hlt := (behind_of_nextRaw hraw).length_lt
              refine bind_congr_of_ok fun noted _ => ?_
              cases noted with
              | inl d' => exact ih (by omega) (by omega)
              | inr found => rfl

theorem pending_le_of_nextMemberFrom {d : Description} {fuel : Nat} {r : Reader}
    {m : Option Member} (h : r.nextMemberFrom d fuel = .ok m) :
    r.pending ≤ r.source.content.length := by
  cases fuel with
  | zero => cases h
  | succ fuel =>
      rw [nextMemberFrom_succ] at h
      obtain ⟨raw, hraw, -⟩ := bind_eq_ok.mp h
      exact pending_le_of_nextRaw hraw

theorem nextMemberFrom_followedBy {d : Description} {fuel fuel' : Nat} {r : Reader}
    {found : Member} (h : r.nextMemberFrom d fuel = .ok (some found)) (hfuel : fuel ≤ fuel')
    (next : Source) :
    (r.followedBy next).nextMemberFrom d fuel' = .ok (some (found.followedBy next)) := by
  induction fuel generalizing d r fuel' with
  | zero => cases h
  | succ fuel ih =>
      cases fuel' with
      | zero => omega
      | succ fuel' =>
          obtain ⟨m, hraw, hfound | ⟨d', hnote, hrest⟩⟩ := nextMemberFrom_eq_some h
          · rw [nextMemberFrom_succ, nextRaw_followedBy hraw]
            exact bind_eq_ok.mpr ⟨_, rfl, bind_eq_ok.mpr ⟨_, m.note_followedBy hfound next, rfl⟩⟩
          · -- The data of a member that describes is complete, as another header follows it.
            have hlong := Nat.le_trans (size_le_pending_of_nextRaw hraw)
              (pending_le_of_nextMemberFrom hrest)
            have hnote' := m.note_followedBy_of_describes hnote hlong next
            rw [nextMemberFrom_succ, nextRaw_followedBy hraw]
            exact bind_eq_ok.mpr ⟨_, rfl, bind_eq_ok.mpr ⟨_, hnote', ih hrest (by omega)⟩⟩

theorem behind_of_nextMemberFrom {d : Description} {fuel : Nat} {r : Reader} {m : Member}
    (h : r.nextMemberFrom d fuel = .ok (some m)) :
    Behind r m.reader ∧ m.size ≤ m.reader.pending := by
  induction fuel generalizing d r with
  | zero => cases h
  | succ fuel ih =>
      obtain ⟨raw, hraw, hfound | ⟨d', -, hrest⟩⟩ := nextMemberFrom_eq_some h
      · have hm := RawMember.note_eq_inr hfound
        rw [hm]
        exact ⟨behind_of_nextRaw hraw, size_le_pending_of_nextRaw hraw⟩
      · obtain ⟨hbehind, hsize⟩ := ih hrest
        exact ⟨(behind_of_nextRaw hraw).trans hbehind, hsize⟩

/-- Behind a member that describes the next one there has to be a next one. -/
theorem nextMemberFrom_eq_none {d : Description} {fuel : Nat} {r : Reader}
    (h : r.nextMemberFrom d fuel = .ok none) :
    d = .nothing ∧ r.nextRaw d.statedSize? = .ok none := by
  induction fuel generalizing d r with
  | zero => cases h
  | succ fuel ih =>
      rw [nextMemberFrom_succ] at h
      obtain ⟨raw, hraw, h⟩ := bind_eq_ok.mp h
      cases raw with
      | none =>
          refine ⟨?_, hraw⟩
          dsimp only at h
          split at h
          · cases h
          · next hnothing =>
              simp only [not_or, Option.not_isSome_iff_eq_none] at hnothing
              obtain ⟨hname, hlink, hextensions⟩ := hnothing
              cases d
              cases hname
              cases hlink
              cases hextensions
              rfl
      | some m =>
          obtain ⟨noted, hnoted, h⟩ := bind_eq_ok.mp h
          cases noted with
          | inl d' => exact absurd (ih h).1 (RawMember.ne_nothing_of_note hnoted)
          | inr found => cases h

theorem nextMemberFrom_eq_error {d : Description} {fuel : Nat} {r : Reader} {e : Error}
    (h : r.nextMemberFrom d fuel = .error e) : e = malformed := by
  induction fuel generalizing d r with
  | zero =>
      cases h
      rfl
  | succ fuel ih =>
      rw [nextMemberFrom_succ] at h
      obtain hraw | ⟨raw, -, h⟩ := bind_eq_error.mp h
      · exact nextRaw_eq_error hraw
      cases raw with
      | none =>
          dsimp only at h
          split at h
          · cases h
            rfl
          · cases h
      | some m =>
          obtain hnote | ⟨noted, -, h⟩ := bind_eq_error.mp h
          · exact RawMember.note_eq_error hnote
          cases noted with
          | inl d' => exact ih h
          | inr found => cases h

theorem nextMember_eq_error {r : Reader} {e : Error} (h : r.nextMember = .error e) :
    e = malformed := nextMemberFrom_eq_error h

theorem behind_of_nextMember {r : Reader} {m : Member} (h : r.nextMember = .ok (some m)) :
    Behind r m.reader := (behind_of_nextMemberFrom h).1

theorem size_le_pending_of_nextMember {r : Reader} {m : Member}
    (h : r.nextMember = .ok (some m)) : m.size ≤ m.reader.pending :=
  (behind_of_nextMemberFrom h).2

theorem pending_le_of_nextMember {r : Reader} {m : Option Member} (h : r.nextMember = .ok m) :
    r.pending ≤ r.source.content.length := pending_le_of_nextMemberFrom h

theorem nextMember_followedBy {r : Reader} {m : Member} (h : r.nextMember = .ok (some m))
    (next : Source) : (r.followedBy next).nextMember = .ok (some (m.followedBy next)) := by
  refine nextMemberFrom_followedBy h ?_ next
  simp only [followedBy, Source.followedBy, List.length_append]
  omega

theorem nextMember_of_skip {r r' : Reader} (h : r.skip = .ok r') :
    r'.nextMember = r.nextMember := by
  have hlen : r'.source.content.length ≤ r.source.content.length := by
    obtain ⟨-, rfl⟩ := skip_eq_ok.mp h
    simp only [Source.drop, List.length_drop]
    omega
  have hfuel : r'.nextMember = r'.nextMemberFrom .nothing (r.source.content.length + 2) :=
    nextMemberFrom_congr (by omega) (by omega)
  rw [hfuel, nextMember, nextMemberFrom_succ, nextMemberFrom_succ, nextRaw_of_skip h]
  rfl

theorem nextMember_eq_none {r : Reader} (h : r.nextMember = .ok none) :
    ∃ r', r.skip = .ok r' ∧
      ((r'.source.content = [] ∧ r'.source.ending = .clean) ∨
        ∃ h, r'.nextBlock = .ok (some h) ∧ h.isZero = true) := by
  obtain ⟨r', hskip, hnone | hzero⟩ := nextRaw_eq_none.mp (nextMemberFrom_eq_none h).2
  · exact ⟨r', hskip, .inl (nextBlock_eq_none.mp hnone)⟩
  · exact ⟨r', hskip, .inr hzero⟩

theorem nextMember_of_isZero {r r' : Reader} {h : Header} (hskip : r.skip = .ok r')
    (hblock : r'.nextBlock = .ok (some h)) (hzero : h.isZero = true) :
    r.nextMember = .ok none := by
  have hraw : r.nextRaw Description.nothing.statedSize? = .ok none :=
    nextRaw_eq_none.mpr ⟨r', hskip, .inr ⟨h, hblock, hzero⟩⟩
  refine (nextMemberFrom_succ .nothing _ r).trans ?_
  rw [hraw]
  rfl

/-- A reader at the beginning of a member. -/
def ofBytesAt (position : Nat) (content : Bytes) : Reader := ⟨.ofBytes content, 0, position⟩

end Reader

/-- A block that is the header of a member with so much data. -/
structure Header.IsHeader (h : Header) (size : Nat) : Prop where
  length_eq : h.block.length = blockSize
  isZero_eq : h.isZero = false
  check_eq : h.check? = some h.sum
  size_eq : h.size? = some size

namespace Reader

theorem rawMember_of_isHeader {r : Reader} {h : Header} {size : Nat} (hh : h.IsHeader size)
    (hfits : r.position + blockSize + fillUp size < sizeLimit) :
    r.rawMember h none =
      .ok ⟨h, size, ⟨r.source.drop blockSize, fillUp size, r.position + blockSize⟩⟩ := by
  have hsize : size + (blockSize - 1) < sizeLimit := by
    simp only [fillUp, blockSize, sizeLimit] at hfits ⊢
    omega
  have hsmall : ¬ (sizeLimit ≤ size + (blockSize - 1) ∨
      sizeLimit ≤ r.position + blockSize + fillUp size) := by
    omega
  rw [rawMember, if_neg (fun hne => hne hh.check_eq), hh.size_eq]
  exact if_neg hsmall

theorem nextRaw_of_isHeader {h : Header} {size : Nat} (hh : h.IsHeader size) {position : Nat}
    (hfits : position + blockSize + fillUp size < sizeLimit) (rest : Bytes) :
    (ofBytesAt position (h.block ++ rest)).nextRaw none =
      .ok (some ⟨h, size, ⟨.ofBytes rest, fillUp size, position + blockSize⟩⟩) := by
  have hrest : (Source.ofBytes (h.block ++ rest)).drop blockSize = .ofBytes rest := by
    rw [Source.drop, Source.ofBytes, List.drop_left' hh.length_eq]
    rfl
  refine nextRaw_eq_some.mpr ⟨ofBytesAt position (h.block ++ rest), h, ?_, ?_, hh.isZero_eq, ?_⟩
  · exact skip_eq_ok.mpr ⟨Nat.zero_le _, rfl⟩
  · refine nextBlock_eq_some.mpr ⟨?_, ?_⟩
    · simp only [ofBytesAt, Source.ofBytes, List.length_append, hh.length_eq]
      exact Nat.le_add_right ..
    · simp only [ofBytesAt, Source.ofBytes, List.take_left' hh.length_eq]
  · rw [rawMember_of_isHeader hh hfits]
    simp only [ofBytesAt, hrest]

theorem nextMember_of_nextRaw {r : Reader} {m : RawMember} (hraw : r.nextRaw none = .ok (some m))
    (hkind : m.header.kind ∉ [.longName, .longLink, .extensions]) :
    r.nextMember = (m.describe .nothing).map some := by
  have hnext : r.nextMember = m.note .nothing >>= fun
      | .inl d' => m.reader.nextMemberFrom d' (r.source.content.length + 1)
      | .inr found => .ok (some found) := by
    refine (nextMemberFrom_succ .nothing _ r).trans ?_
    rw [Description.statedSize?, Description.nothing]
    exact congrArg (· >>= _) hraw
  rw [hnext, RawMember.note_of_kind hkind]
  cases m.describe .nothing with
  | error e => rfl
  | ok found => rfl

/-- A header alone is enough for a member that needs no others. -/
theorem nextMember_of_isHeader {h : Header} {size : Nat} (hh : h.IsHeader size)
    (hkind : h.kind ∉ [.longName, .longLink, .extensions, .sparse]) (position : Nat)
    (hfits : position + blockSize + fillUp size < sizeLimit) (rest : Bytes) :
    (ofBytesAt position (h.block ++ rest)).nextMember = .ok (some
      ⟨h.kind, h.path, size, ⟨.ofBytes rest, fillUp size, position + blockSize⟩⟩) := by
  simp only [List.mem_cons, List.not_mem_nil, or_false, not_or] at hkind
  obtain ⟨hname, hlink, hextensions, hsparse⟩ := hkind
  have hdescribes : h.kind ∉ [.longName, .longLink, .extensions] := by
    simp [hname, hlink, hextensions]
  rw [nextMember_of_nextRaw (nextRaw_of_isHeader hh hfits rest) hdescribes, RawMember.describe,
    if_neg fun hbad => hsparse hbad.1]
  rfl

/-- Reading goes over whole members from the first place to the second. -/
inductive Passes : Reader → Reader → Prop
  | here (r : Reader) : Passes r r
  | member {r r' : Reader} {m : Member} (h : r.nextMember = .ok (some m))
      (hrest : Passes m.reader r') : Passes r r'

theorem Passes.ending_eq {r r' : Reader} (h : Passes r r') :
    r'.source.ending = r.source.ending := by
  induction h with
  | here => rfl
  | member hm _ ih => exact ih.trans (behind_of_nextMember hm).ending_eq

theorem Passes.position_eq {r r' : Reader} (h : Passes r r') :
    r'.position + r'.source.content.length = r.position + r.source.content.length := by
  induction h with
  | here => rfl
  | member hm _ ih => exact ih.trans (behind_of_nextMember hm).position_eq

theorem Passes.pending_le {r r' : Reader} (h : Passes r r')
    (hlong : r'.pending ≤ r'.source.content.length) : r.pending ≤ r.source.content.length := by
  cases h with
  | here => exact hlong
  | member hm => exact pending_le_of_nextMember hm

theorem Passes.followedBy {r r' : Reader} (h : Passes r r') (next : Source) :
    Passes (r.followedBy next) (r'.followedBy next) := by
  induction h with
  | here r => exact .here _
  | member hm _ ih => exact .member (nextMember_followedBy hm next) ih

end Reader

/-! ## Extraction, member by member -/

/-- Extracts what is left of an archive. -/
def extractRest (destination : Route) (p : Progress) (r : Reader) : Step :=
  extractFrom destination (r.source.content.length + 1) p r

theorem extractFrom_congr {destination : Route} {fuel fuel' : Nat} {p : Progress} {r : Reader}
    (h : r.source.content.length < fuel) (h' : r.source.content.length < fuel') :
    extractFrom destination fuel p r = extractFrom destination fuel' p r := by
  induction fuel generalizing p r fuel' with
  | zero => omega
  | succ fuel ih =>
      cases fuel' with
      | zero => omega
      | succ fuel' =>
          rw [extractFrom, extractFrom]
          split
          · rfl
          · rfl
          · next m hm =>
              have hlt := (Reader.behind_of_nextMember hm).length_lt
              congr 1
              funext q
              exact ih (by omega) (by omega)

section

variable {destination : Route} {p : Progress} {r : Reader}

theorem extractRest_of_error {e : Error} (h : r.nextMember = .error e) :
    extractRest destination p r = (p, .error e) := by
  rw [extractRest, extractFrom, h]

theorem extractRest_of_none (h : r.nextMember = .ok none) :
    extractRest destination p r = (p, .ok ()) := by
  rw [extractRest, extractFrom, h]

theorem extractRest_of_some {m : Member} (h : r.nextMember = .ok (some m)) :
    extractRest destination p r =
      (extractMember p destination m).andThen fun q => extractRest destination q m.reader := by
  have hlt := (Reader.behind_of_nextMember h).length_lt
  rw [extractRest, extractFrom, h]
  dsimp only
  congr 1
  funext q
  exact extractFrom_congr hlt (by omega)

theorem extractRest_of_skip {r' : Reader} (h : r.skip = .ok r') :
    extractRest destination p r' = extractRest destination p r := by
  have hsame := Reader.nextMember_of_skip h
  cases hr : r.nextMember with
  | error e => rw [extractRest_of_error hr, extractRest_of_error (hsame.trans hr)]
  | ok found =>
      cases found with
      | none => rw [extractRest_of_none hr, extractRest_of_none (hsame.trans hr)]
      | some m => rw [extractRest_of_some hr, extractRest_of_some (hsame.trans hr)]

end

theorem extractSource_eq (t : Tree) (destination : Route) (source : Source) :
    extractSource t destination source =
      extractRest destination ⟨t, 0, 0, 0, 0⟩ (.ofSource source) :=
  extractFrom_congr (by simp only [Reader.ofSource]; omega) (by omega)

/-- A member whose data is all there takes nothing of what follows it. -/
theorem extractMember_followedBy {m : Member} (h : m.size ≤ m.reader.source.content.length)
    (p : Progress) (destination : Route) (next : Source) :
    extractMember p destination (m.followedBy next) = extractMember p destination m := by
  have hdata : (m.followedBy next).reader.source.content.take (m.followedBy next).size =
      m.reader.source.content.take m.size := List.take_append_of_le_length h
  have hfault : (m.followedBy next).shortFault = m.shortFault := by
    have hlong : (m.followedBy next).size ≤ (m.followedBy next).reader.source.content.length := by
      refine Nat.le_trans h ?_
      rw [Member.followedBy, Reader.followedBy, Source.followedBy, List.length_append]
      exact Nat.le_add_right ..
    rw [Member.shortFault, if_pos hlong, Member.shortFault, if_pos h]
  have hfile : ∀ route, extractFile p destination route (m.followedBy next) =
      extractFile p destination route m := by
    intro route
    rw [extractFile, extractFile, hdata, hfault]
    rfl
  rw [extractMember, extractMember]
  simp only [hfile]
  rfl

/-- Extraction of whole members either comes to the reader behind them or fails
at one of them, whatever follows. -/
theorem extractRest_of_passes {r r' : Reader} (h : Reader.Passes r r')
    (hlong : r'.pending ≤ r'.source.content.length) (destination : Route) (p : Progress) :
    (∃ q, ∀ next, extractRest destination p (r.followedBy next) =
      extractRest destination q (r'.followedBy next)) ∨
    ∃ q e, ∀ next, extractRest destination p (r.followedBy next) = (q, .error e) := by
  induction h generalizing p with
  | here r => exact .inl ⟨p, fun next => rfl⟩
  | @member r r' m hm hrest ih =>
      have hcomplete := Nat.le_trans (Reader.size_le_pending_of_nextMember hm)
        (hrest.pending_le hlong)
      have hstep : ∀ next, extractRest destination p (r.followedBy next) =
          (extractMember p destination m).andThen fun q =>
            extractRest destination q (m.reader.followedBy next) := by
        intro next
        rw [extractRest_of_some (Reader.nextMember_followedBy hm next),
          extractMember_followedBy hcomplete]
        rfl
      obtain ⟨⟨p', result⟩, hmade⟩ : ∃ step, extractMember p destination m = step := ⟨_, rfl⟩
      rw [hmade] at hstep
      cases result with
      | error e => exact .inr ⟨p', e, hstep⟩
      | ok =>
          obtain ⟨q, hq⟩ | ⟨q, e, hq⟩ := ih hlong p'
          · exact .inl ⟨q, fun next => (hstep next).trans (hq next)⟩
          · exact .inr ⟨q, e, fun next => (hstep next).trans (hq next)⟩

/-- What is extracted has been read up to a place where there is no member. -/
theorem exists_passes_of_ok {destination : Route} {p q : Progress} {r : Reader}
    (h : extractRest destination p r = (q, .ok ())) :
    ∃ r', Reader.Passes r r' ∧ r'.nextMember = .ok none := by
  induction hlength : r.source.content.length using Nat.strongRecOn generalizing p r with
  | ind length ih =>
      cases hr : r.nextMember with
      | error e =>
          rw [extractRest_of_error hr] at h
          cases h
      | ok found =>
          cases found with
          | none => exact ⟨r, .here r, hr⟩
          | some m =>
              have hlt := (Reader.behind_of_nextMember hr).length_lt
              rw [extractRest_of_some hr] at h
              obtain ⟨⟨p', result⟩, hmade⟩ :
                ∃ step, extractMember p destination m = step := ⟨_, rfl⟩
              rw [hmade] at h
              cases result with
              | error e => cases h
              | ok =>
                  obtain ⟨r', hpasses, hend⟩ := ih _ (hlength ▸ hlt) h rfl
                  exact ⟨r', .member hr hpasses, hend⟩

/-! ## End markers -/

/-- There is a block of zeros in place of a header. -/
def Source.HasEndMarker (s : Source) : Prop :=
  ∃ r r' h, Reader.Passes (.ofSource s) r ∧ r.skip = .ok r' ∧ r'.nextBlock = .ok (some h) ∧
    h.isZero = true

theorem Source.HasEndMarker.followedBy {s : Source} (h : s.HasEndMarker) (next : Source) :
    (s.followedBy next).HasEndMarker := by
  obtain ⟨r, r', header, hpasses, hskip, hblock, hzero⟩ := h
  exact ⟨_, _, header, hpasses.followedBy next, Reader.skip_followedBy hskip next,
    Reader.nextBlock_followedBy hblock next, hzero⟩

theorem Source.followedBy_nil {s s' : Source} (h : s'.content = s.content) :
    s.followedBy ⟨[], s'.ending⟩ = s' := by
  rw [followedBy, List.append_nil, ← h]

/-- Whether there is an end marker is up to the bytes alone. -/
theorem hasEndMarker_congr {s s' : Source} (h : s'.content = s.content) :
    s.HasEndMarker ↔ s'.HasEndMarker :=
  ⟨fun hend => Source.followedBy_nil h ▸ hend.followedBy ⟨[], s'.ending⟩,
    fun hend => Source.followedBy_nil h.symm ▸ hend.followedBy ⟨[], s.ending⟩⟩

/-- An archive is extracted with success only if there is an end marker or its
bytes end without a fault. -/
theorem hasEndMarker_or_clean_of_ok {t : Tree} {destination : Route} {s : Source} {p : Progress}
    (h : extractSource t destination s = (p, .ok ())) : s.HasEndMarker ∨ s.ending = .clean := by
  rw [extractSource_eq] at h
  obtain ⟨r, hpasses, hend⟩ := exists_passes_of_ok h
  obtain ⟨r', hskip, ⟨-, hclean⟩ | ⟨header, hblock, hzero⟩⟩ := Reader.nextMember_eq_none hend
  · right
    obtain ⟨-, rfl⟩ := Reader.skip_eq_ok.mp hskip
    exact hpasses.ending_eq.symm.trans hclean
  · exact .inl ⟨r, r', header, hpasses, hskip, hblock, hzero⟩

/-- Nothing behind an end marker is looked at. -/
theorem extractSource_followedBy {s : Source} (h : s.HasEndMarker) (t : Tree)
    (destination : Route) (next : Source) :
    extractSource t destination (s.followedBy next) = extractSource t destination s := by
  obtain ⟨r, r', header, hpasses, hskip, hblock, hzero⟩ := h
  have hlong := (Reader.skip_eq_ok.mp hskip).1
  have hend : ∀ next, (r.followedBy next).nextMember = .ok none := fun next =>
    Reader.nextMember_of_isZero (Reader.skip_followedBy hskip next)
      (Reader.nextBlock_followedBy hblock next) hzero
  have hsame : ∀ next next', extractSource t destination (s.followedBy next) =
      extractSource t destination (s.followedBy next') := by
    intro next next'
    rw [extractSource_eq, extractSource_eq]
    obtain ⟨q, hq⟩ | ⟨q, e, hq⟩ :=
      extractRest_of_passes hpasses hlong destination ⟨t, 0, 0, 0, 0⟩
    · refine (hq next).trans (.trans ?_ (hq next').symm)
      rw [extractRest_of_none (hend next), extractRest_of_none (hend next')]
    · exact (hq next).trans (hq next').symm
  rw [hsame next ⟨[], s.ending⟩, Source.followedBy_nil rfl]

theorem extractSource_congr {s s' : Source} (h : s'.content = s.content) (hend : s.HasEndMarker)
    (t : Tree) (destination : Route) :
    extractSource t destination s' = extractSource t destination s := by
  rw [← Source.followedBy_nil h]
  exact extractSource_followedBy hend t destination _

end GlyphSearch.Tar
