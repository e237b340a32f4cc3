import GlyphSearch.Proofs.Refusal
import GlyphSearch.Proofs.Unpacking

/-!
# Archives that end too early

`Holds` lists the members of an archive and says where they end. An extraction
that does not find the archive malformed extracts these members in turn, with
all the data that the archive states for each.

The loop itself takes a member with too little data for a shorter one. That the
archive has been cut is found only when the next member is read: what is left
to be passed over is not there. So the proof keeps account of positions. A cut
changes nothing for the members that end before it. If it falls into the
headers of a member, no member is read there, and if it falls into the data or
into what fills up the last block, none is read behind it. Only a cut between
two members leaves an archive that is read to its end.
-/

namespace GlyphSearch.Tar

open Files Text

/-! ## The members of an archive -/

/-- Where a member ends, with what fills up its last block. -/
def Member.stop (m : Member) : Nat := m.reader.position + m.reader.pending

/-- The members that are read from a place on, and the place at which there is
no other. -/
inductive Reader.Holds : Reader → List Member → Nat → Prop
  | done {r : Reader} (h : r.nextMember = .ok none) : Holds r [] (r.position + r.pending)
  | member {r : Reader} {m : Member} {ms : List Member} {stop : Nat}
      (h : r.nextMember = .ok (some m)) (hrest : Holds m.reader ms stop) :
      Holds r (m :: ms) stop

def extractMembers (destination : Route) (p : Progress) : List Member → Step
  | [] => (p, .ok ())
  | m :: ms => (extractMember p destination m).andThen fun q => extractMembers destination q ms

theorem Step.andThen_eq_ok {s : Step} {next : Progress → Step} {q : Progress} :
    s.andThen next = (q, .ok ()) ↔ ∃ p, s = (p, .ok ()) ∧ next p = (q, .ok ()) := by
  obtain ⟨p, e | ⟨⟨⟩⟩⟩ := s
  · simp [andThen]
  · simp [andThen]

theorem extractMembers_append (destination : Route) (p : Progress) (ms ms' : List Member) :
    extractMembers destination p (ms ++ ms') =
      (extractMembers destination p ms).andThen fun q => extractMembers destination q ms' := by
  induction ms generalizing p with
  | nil => rfl
  | cons m ms ih =>
      rw [List.cons_append, extractMembers, extractMembers]
      obtain ⟨q, e | ⟨⟨⟩⟩⟩ := extractMember p destination m
      · rfl
      · exact ih q

namespace Reader.Holds

variable {r : Reader} {m : Member} {ms ms' : List Member} {stop stop' : Nat}

theorem unique (h : r.Holds ms stop) (h' : r.Holds ms' stop') : ms = ms' ∧ stop = stop' := by
  induction h generalizing ms' with
  | done h =>
      cases h' with
      | done _ => exact ⟨rfl, rfl⟩
      | member h' _ =>
          rw [h] at h'
          cases h'
  | member h _ ih =>
      cases h' with
      | done h' =>
          rw [h] at h'
          cases h'
      | member h' hrest' =>
          rw [h] at h'
          cases h'
          obtain ⟨rfl, hstop⟩ := ih hrest'
          exact ⟨rfl, hstop⟩

theorem pending_le (h : r.Holds ms stop) : r.pending ≤ r.source.content.length := by
  cases h with
  | done h => exact pending_le_of_nextMember h
  | member h _ => exact pending_le_of_nextMember h

theorem stop_le_length (h : r.Holds ms stop) : stop ≤ r.position + r.source.content.length := by
  induction h with
  | done h =>
      have hle := pending_le_of_nextMember h
      omega
  | member h _ ih =>
      have hposition := (behind_of_nextMember h).position_eq
      omega

theorem start_le_stop (h : r.Holds ms stop) (hm : m ∈ ms) : r.position + r.pending ≤ m.stop := by
  induction h with
  | done _ => cases hm
  | member h _ ih =>
      have hle := position_le_of_nextMemberFrom h
      rcases List.mem_cons.mp hm with rfl | hm
      · rw [Member.stop]
        omega
      · have hstop := ih hm
        omega

/-- The data of a member is there if something else is read behind it. -/
theorem size_le_of_nextMember (h : r.nextMember = .ok (some m)) (hrest : m.reader.Holds ms stop) :
    m.size ≤ m.reader.source.content.length :=
  Nat.le_trans (size_le_pending_of_nextMember h) hrest.pending_le

theorem size_le (h : r.Holds ms stop) (hm : m ∈ ms) :
    m.size ≤ m.reader.source.content.length := by
  induction h with
  | done _ => cases hm
  | member h hrest ih =>
      rcases List.mem_cons.mp hm with rfl | hm
      · exact size_le_of_nextMember h hrest
      · exact ih hm

end Reader.Holds

theorem extractRest_of_holds {r : Reader} {ms : List Member} {stop : Nat} (h : r.Holds ms stop)
    (destination : Route) (p : Progress) :
    extractRest destination p r = extractMembers destination p ms := by
  induction h generalizing p with
  | done h => exact extractRest_of_none h
  | member h _ ih =>
      rw [extractRest_of_some h, extractMembers]
      congr 1
      funext q
      exact ih q

theorem exists_holds_of_passes {r r' : Reader} (h : Reader.Passes r r')
    (hend : r'.nextMember = .ok none) : ∃ ms stop, r.Holds ms stop := by
  induction h with
  | here r => exact ⟨_, _, .done hend⟩
  | member h _ ih =>
      obtain ⟨ms, stop, hms⟩ := ih hend
      exact ⟨_, _, .member h hms⟩

/-- What is extracted with success is a list of members. -/
theorem exists_holds_of_ok {t : Tree} {destination : Route} {s : Source} {q : Progress}
    (h : extractSource t destination s = (q, .ok ())) :
    ∃ ms stop, (Reader.ofSource s).Holds ms stop ∧
      extractMembers destination ⟨t, 0, 0, 0, 0⟩ ms = (q, .ok ()) := by
  rw [extractSource_eq] at h
  obtain ⟨r, hpasses, hend⟩ := exists_passes_of_ok h
  obtain ⟨ms, stop, hms⟩ := exists_holds_of_passes hpasses hend
  exact ⟨ms, stop, hms, (extractRest_of_holds hms ..).symm.trans h⟩

/-! ## What one member comes to -/

/-- Whether a file may be written does not depend on its content. -/
theorem exists_writeFile_of_ok {t t' : Tree} {start : Route} {names : List Name} {content : Bytes}
    (h : t.writeFile start names content = (t', .ok ())) (content' : Bytes) :
    ∃ t'', t.writeFile start names content' = (t'', .ok ()) := by
  rw [Tree.writeFile] at h ⊢
  split at h
  · cases h
  · next r hwalk =>
      split at h
      · exact ⟨_, rfl⟩
      · exact ⟨_, rfl⟩
      · cases h
      · cases h
      · exact ⟨_, rfl⟩

section

variable {p q : Progress} {destination route : Route} {m m' : Member}

theorem exists_tree_of_makeDirectories (p : Progress) (destination route : Route) :
    ∃ t, (p.makeDirectories destination route).1 = { p with tree := t } := by
  rw [Progress.makeDirectories]
  split
  · exact ⟨_, rfl⟩
  · rw [Progress.checkTarget]
    generalize (Tree.checkPath _).mapError Error.file = checked
    obtain e | ⟨⟨⟩⟩ := checked
    · exact ⟨_, rfl⟩
    · exact ⟨_, rfl⟩

theorem changeTree_eq_ok {change : Tree → Tree × Done} : p.changeTree change = (q, .ok ()) ↔
    ∃ t, change p.tree = (t, .ok ()) ∧ q = { p with tree := t } := by
  rw [Progress.changeTree]
  obtain ⟨t, fault | ⟨⟨⟩⟩⟩ := change p.tree
  · simp [Except.mapError]
  · simp [Except.mapError, eq_comm]

theorem extractFile_eq_ok : extractFile p destination route m = (q, .ok ()) ↔
    route ≠ [] ∧ m.shortFault = .ok () ∧
      ∃ p' t, p.makeDirectories destination route.dropLast = (p', .ok ()) ∧
        p'.checkTarget (destination ++ route) = (p', .ok ()) ∧
        p'.tree.writeFile destination route (m.reader.source.content.take m.size) = (t, .ok ()) ∧
        q = ⟨t, p'.files + 1, p'.directories,
          p'.bytes + (m.reader.source.content.take m.size).length, p'.members + 1⟩ := by
  constructor
  · intro h
    rw [extractFile] at h
    split at h
    · cases h
    · next hroute =>
        obtain ⟨p', hmade, h⟩ := Step.andThen_eq_ok.mp h
        obtain ⟨p'', hcheck, h⟩ := Step.andThen_eq_ok.mp h
        obtain rfl : p' = p'' := congrArg Prod.fst hcheck
        obtain ⟨_, hwrite, h⟩ := Step.andThen_eq_ok.mp h
        obtain ⟨t, ht, rfl⟩ := changeTree_eq_ok.mp hwrite
        obtain ⟨_, hfault, h⟩ := Step.andThen_eq_ok.mp h
        obtain rfl := congrArg Prod.fst hfault
        exact ⟨hroute, congrArg Prod.snd hfault, p', t, hmade, hcheck, ht,
          (congrArg Prod.fst h).symm⟩
  · rintro ⟨hroute, hfault, p', t, hmade, hcheck, ht, rfl⟩
    rw [extractFile, if_neg hroute, hfault]
    exact Step.andThen_eq_ok.mpr ⟨p', hmade, Step.andThen_eq_ok.mpr ⟨p', hcheck,
      Step.andThen_eq_ok.mpr ⟨_, changeTree_eq_ok.mpr ⟨t, ht, rfl⟩, rfl⟩⟩⟩

/-- Only the extraction of a file looks at more than what a member is and where
it goes. -/
theorem extractMember_congr (hkind : m'.kind = m.kind) (hpath : m'.path = m.path)
    (hfile : m.kind ≠ .regular) (p : Progress) (destination : Route) :
    extractMember p destination m' = extractMember p destination m := by
  rw [extractMember, extractMember, hkind, hpath]
  split
  · rfl
  · split
    · rfl
    · split
      · rfl
      · next heq => exact absurd heq hfile
      · rfl

theorem extractMember_of_regular (hkind : m.kind = .regular) :
    extractMember p destination m = (q, .ok ()) ↔
      ∃ route, memberRoute m.path = .ok route ∧ extractFile p destination route m = (q, .ok ()) := by
  rw [extractMember, hkind, if_neg (by decide)]
  cases memberRoute m.path with
  | error e => simp
  | ok route => simp

/-- Whether a member may be extracted does not depend on its data. -/
theorem extractMember_of_clean (h : extractMember p destination m = (q, .ok ()))
    (hkind : m'.kind = m.kind) (hpath : m'.path = m.path)
    (hclean : m'.reader.source.ending = .clean) :
    ∃ q', extractMember p destination m' = (q', .ok ()) := by
  by_cases hfile : m.kind = .regular
  · obtain ⟨route, hroute, hextract⟩ := (extractMember_of_regular hfile).mp h
    obtain ⟨hne, -, p', t, hmade, hcheck, hwrite, -⟩ := extractFile_eq_ok.mp hextract
    obtain ⟨t', hwrite'⟩ := exists_writeFile_of_ok hwrite (m'.reader.source.content.take m'.size)
    have hfault : m'.shortFault = .ok () := by
      rw [Member.shortFault, hclean]
      exact ite_self _
    exact ⟨_, (extractMember_of_regular (hkind.trans hfile)).mpr ⟨route, hpath ▸ hroute,
      extractFile_eq_ok.mpr ⟨hne, hfault, p', t', hmade, hcheck, hwrite', rfl⟩⟩⟩
  · exact ⟨q, (extractMember_congr hkind hpath hfile p destination).trans h⟩

theorem bytes_of_extractMember (h : extractMember p destination m = (q, .ok ()))
    (hfile : m.kind ≠ .regular) : q.bytes = p.bytes := by
  rw [extractMember] at h
  split at h
  · cases h
    rfl
  · split at h
    · cases h
    · next route _ =>
        split at h
        · rw [extractDirectory] at h
          split at h
          · cases h
            rfl
          · obtain ⟨p', hmade, h⟩ := Step.andThen_eq_ok.mp h
            obtain ⟨t, ht⟩ := exists_tree_of_makeDirectories p destination route
            rw [hmade] at ht
            subst ht
            cases h
            rfl
        · next heq => exact absurd heq hfile
        · cases h

/-- A file that has been written with all the data that its member has, below
the directories that were made for it. It is found in its place with this data,
unless a device is there, which takes the data and stays as it is. -/
structure Written (destination : Route) (p : Progress) (m : Member) (q : Progress) : Prop where
  data : (m.reader.source.content.take m.size).length = m.size
  bytes : q.bytes = p.bytes + m.size
  files : q.files = p.files + 1
  tree : ∃ (t : Tree) (route : Route), memberRoute m.path = .ok route ∧
    p.makeDirectories destination route.dropLast = ({ p with tree := t }, .ok ()) ∧
    t.writeFile destination route (m.reader.source.content.take m.size) = (q.tree, .ok ()) ∧
    ∃ r, q.tree.follow destination route =
        .ok (r, .file (m.reader.source.content.take m.size)) ∨
      ∃ old, t.follow destination route = .ok (r, .device old) ∧ q.tree = t

theorem written_of_extractMember (h : extractMember p destination m = (q, .ok ()))
    (hkind : m.kind = .regular) (hdata : m.size ≤ m.reader.source.content.length) :
    Written destination p m q := by
  obtain ⟨route, hroute, hextract⟩ := (extractMember_of_regular hkind).mp h
  obtain ⟨-, -, p', t, hmade, -, hwrite, rfl⟩ := extractFile_eq_ok.mp hextract
  obtain ⟨t', ht'⟩ := exists_tree_of_makeDirectories p destination route.dropLast
  rw [hmade] at ht'
  subst ht'
  have hlength : (m.reader.source.content.take m.size).length = m.size :=
    List.length_take_of_le hdata
  exact ⟨hlength, congrArg (p.bytes + ·) hlength, rfl, t', route, hroute, hmade, hwrite,
    Tree.follow_of_writeFile hwrite⟩

end

section

variable {destination : Route} {p q : Progress} {r : Reader} {ms : List Member} {stop : Nat}

theorem written_of_holds (h : r.Holds ms stop)
    (hok : extractMembers destination p ms = (q, .ok ())) {before after : List Member} {m : Member}
    (hms : ms = before ++ m :: after) (hkind : m.kind = .regular) :
    ∃ p' q', extractMembers destination p before = (p', .ok ()) ∧
      extractMember p' destination m = (q', .ok ()) ∧ Written destination p' m q' := by
  rw [hms, extractMembers_append] at hok
  obtain ⟨p', hbefore, hok⟩ := Step.andThen_eq_ok.mp hok
  obtain ⟨q', hm, -⟩ := Step.andThen_eq_ok.mp hok
  have hdata := h.size_le (m := m) (hms ▸ List.mem_append_cons_self)
  exact ⟨p', q', hbefore, hm, written_of_extractMember hm hkind hdata⟩

/-- The sizes that are stated for the files among some members. -/
def fileSizes (ms : List Member) : List Nat := (ms.filter (·.kind = .regular)).map Member.size

theorem bytes_of_holds (h : r.Holds ms stop)
    (hok : extractMembers destination p ms = (q, .ok ())) :
    q.bytes = p.bytes + (fileSizes ms).sum := by
  induction h generalizing p with
  | done _ =>
      cases hok
      rfl
  | @member r m ms stop hm hrest ih =>
      obtain ⟨p', hmade, hok⟩ := Step.andThen_eq_ok.mp hok
      have hbytes := ih hok
      by_cases hkind : m.kind = .regular
      · have hdata := Reader.Holds.size_le_of_nextMember hm hrest
        have hsizes : fileSizes (m :: ms) = m.size :: fileSizes ms := by simp [fileSizes, hkind]
        rw [hbytes, (written_of_extractMember hmade hkind hdata).bytes, hsizes, List.sum_cons,
          Nat.add_assoc]
      · have hsizes : fileSizes (m :: ms) = fileSizes ms := by simp [fileSizes, hkind]
        rw [hbytes, bytes_of_extractMember hmade hkind, hsizes]

end

/-! ## Cuts -/

/-- The reader of the same archive if it ends at a place. -/
def Reader.cut (r : Reader) (n : Nat) : Reader := r.upTo (n - r.position)

def Member.cut (m : Member) (n : Nat) : Member := { m with reader := m.reader.cut n }

section

variable {r : Reader} {m : Member} {n : Nat}

theorem Reader.cut_followedBy (r : Reader) (n : Nat) :
    (r.cut n).followedBy ⟨r.source.content.drop (n - r.position), r.source.ending⟩ = r := by
  simp [cut, upTo, Source.upTo, followedBy, Source.followedBy]

theorem Reader.nextMember_cut (h : r.nextMember = .ok (some m)) (hkind : m.kind ≠ .sparse)
    (hn : m.reader.position ≤ n) : (r.cut n).nextMember = .ok (some (m.cut n)) := by
  have hle := position_le_of_nextMemberFrom h
  have hread := nextMember_upTo_of_le (n := n - r.position) h hkind (by omega)
  have hleft : r.position + (n - r.position) - m.reader.position = n - m.reader.position := by omega
  rwa [hleft] at hread

/-- Where the headers of a member are cut, nothing is read. -/
theorem Reader.nextMember_cut_eq_error (h : r.nextMember = .ok (some m))
    (hlow : r.position + r.pending < n) (hhigh : n < m.reader.position) :
    (r.cut n).nextMember = .error malformed := by
  have hposition := (behind_of_nextMember h).position_eq
  have hwhole := r.cut_followedBy n
  have hlength : (r.cut n).source.content.length = n - r.position := by
    simp only [cut, upTo, Source.upTo, List.length_take]
    omega
  cases hcut : (r.cut n).nextMember with
  | error e => rw [nextMember_eq_error hcut]
  | ok found =>
      exfalso
      cases found with
      | some m' =>
          -- The member would end its headers before the cut.
          have hsame := nextMember_followedBy hcut
            ⟨r.source.content.drop (n - r.position), r.source.ending⟩
          rw [hwhole, h] at hsame
          cases hsame
          have hbefore := (behind_of_nextMember hcut).position_eq
          rw [hlength] at hbefore
          simp only [Member.followedBy, followedBy, cut, upTo] at hhigh hbefore
          omega
      | none =>
          obtain ⟨r', hskip, ⟨hnil, -⟩ | ⟨header, hblock, hzero⟩⟩ := nextMember_eq_none hcut
          · obtain ⟨-, rfl⟩ := skip_eq_ok.mp hskip
            have hle := List.drop_eq_nil_iff.mp hnil
            rw [hlength] at hle
            simp only [cut, upTo] at hle
            omega
          · -- The same zeros would end the whole archive.
            have hend := nextMember_of_isZero
              (skip_followedBy hskip ⟨r.source.content.drop (n - r.position), r.source.ending⟩)
              (nextBlock_followedBy hblock _) hzero
            rw [hwhole, h] at hend
            cases hend

theorem Reader.nextMember_of_short (h : r.source.content.length < r.pending) :
    r.nextMember = .error malformed := by
  cases hread : r.nextMember with
  | error e => rw [nextMember_eq_error hread]
  | ok found => exact absurd (pending_le_of_nextMember hread) (Nat.not_le.mpr h)

theorem Member.cut_followedBy (m : Member) (n : Nat) :
    (m.cut n).followedBy ⟨m.reader.source.content.drop (n - m.reader.position),
      m.reader.source.ending⟩ = m := by
  rw [followedBy, cut, Reader.cut_followedBy]

theorem Member.length_cut (m : Member) (n : Nat) : (m.cut n).reader.source.content.length =
    min (n - m.reader.position) m.reader.source.content.length := List.length_take

end

section

variable {destination : Route} {p p' q : Progress} {r : Reader} {m : Member} {ms : List Member}
  {n stop : Nat}

theorem kind_ne_sparse_of_ok (h : extractMember p destination m = (q, .ok ())) :
    m.kind ≠ .sparse := by
  intro hkind
  rw [extractMember, hkind, if_neg (by decide)] at h
  split at h
  · cases h
  · cases h

/-- A member that ends before the cut is extracted as before. -/
theorem extractRest_cut (h : r.nextMember = .ok (some m))
    (hmade : extractMember p destination m = (p', .ok ()))
    (hdata : m.size ≤ m.reader.source.content.length) (hn : m.stop ≤ n) :
    extractRest destination p (r.cut n) = extractRest destination p' (m.reader.cut n) := by
  have hsize := Reader.size_le_pending_of_nextMember h
  rw [Member.stop] at hn
  have hread := Reader.nextMember_cut h (kind_ne_sparse_of_ok hmade) (n := n) (by omega)
  have hkept : m.size ≤ n - m.reader.position := by omega
  have hcomplete : (m.cut n).size ≤ (m.cut n).reader.source.content.length := by
    rw [m.length_cut]
    exact Nat.le_min.mpr ⟨hkept, hdata⟩
  have hsame := extractMember_followedBy hcomplete p destination
    ⟨m.reader.source.content.drop (n - m.reader.position), m.reader.source.ending⟩
  rw [m.cut_followedBy, hmade] at hsame
  rw [extractRest_of_some hread, ← hsame]
  rfl

/-- A cut inside a member is found, in its headers at once, and behind them
when what is left of it has to be passed over. -/
theorem extractRest_cut_inside (h : r.nextMember = .ok (some m))
    (hclean : r.source.ending = .clean) (hmade : extractMember p destination m = (p', .ok ()))
    (hlow : r.position + r.pending < n) (hhigh : n < m.stop) :
    ∃ q', extractRest destination p (r.cut n) = (q', .error malformed) := by
  rcases Nat.lt_or_ge n m.reader.position with hheader | hbehind
  · exact ⟨p, extractRest_of_error (Reader.nextMember_cut_eq_error h hlow hheader)⟩
  · have hread := Reader.nextMember_cut h (kind_ne_sparse_of_ok hmade) hbehind
    have hending := (Reader.behind_of_nextMember h).ending_eq
    obtain ⟨q', hq'⟩ : ∃ q', extractMember p destination (m.cut n) = (q', .ok ()) :=
      extractMember_of_clean hmade rfl rfl (hending.trans hclean)
    have hshort : (m.cut n).reader.source.content.length < (m.cut n).reader.pending := by
      rw [Member.stop] at hhigh
      refine Nat.lt_of_le_of_lt (m.length_cut n ▸ Nat.min_le_left ..) ?_
      change n - m.reader.position < m.reader.pending
      omega
    refine ⟨q', ?_⟩
    rw [extractRest_of_some hread, hq']
    exact extractRest_of_error (Reader.nextMember_of_short hshort)

theorem extractRest_cut_malformed (h : r.Holds ms stop) (hclean : r.source.ending = .clean)
    (hok : extractMembers destination p ms = (q, .ok ())) (hlow : r.position + r.pending < n)
    (hhigh : n ≤ stop) (hcut : ∀ m ∈ ms, m.stop ≠ n) :
    ∃ q', extractRest destination p (r.cut n) = (q', .error malformed) := by
  induction h generalizing p with
  | done _ => omega
  | @member r m ms stop hm hrest ih =>
      obtain ⟨p', hmade, hok⟩ := Step.andThen_eq_ok.mp hok
      have hne := hcut m List.mem_cons_self
      -- The cut is in the first member, or it is one of what is behind that.
      rcases Nat.lt_or_ge n m.stop with hinside | hbehind
      · exact extractRest_cut_inside hm hclean hmade hlow hinside
      · have hending := (Reader.behind_of_nextMember hm).ending_eq
        have hdata := Reader.Holds.size_le_of_nextMember hm hrest
        rw [extractRest_cut hm hmade hdata hbehind]
        exact ih (hending.trans hclean) hok (Nat.lt_of_le_of_ne hbehind hne) hhigh
          fun m' hm' => hcut m' (List.mem_cons_of_mem m hm')

/-- Cut between two members, an archive holds the members before the cut. -/
theorem extractRest_cut_between (h : r.Holds ms stop) (hclean : r.source.ending = .clean)
    (hok : extractMembers destination p ms = (q, .ok ())) (hm : m ∈ ms) :
    ∃ q', extractRest destination p (r.cut m.stop) = (q', .ok ()) := by
  induction h generalizing p with
  | done _ => cases hm
  | @member r first ms stop hfirst hrest ih =>
      obtain ⟨p', hmade, hok⟩ := Step.andThen_eq_ok.mp hok
      have hending := (Reader.behind_of_nextMember hfirst).ending_eq.trans hclean
      have hdata := Reader.Holds.size_le_of_nextMember hfirst hrest
      rcases List.mem_cons.mp hm with rfl | hm
      · have hlong := hrest.pending_le
        have hskip : (m.reader.cut m.stop).skip = .ok (.ofBytesAt m.stop []) := by
          refine Reader.skip_eq_ok.mpr ⟨?_, ?_⟩
          · simp only [Reader.cut, Reader.upTo, Source.upTo, List.length_take, Member.stop]
            omega
          · simp [Reader.cut, Reader.upTo, Source.upTo, Source.drop, Reader.ofBytesAt,
              Source.ofBytes, Member.stop, hending]
        rw [extractRest_cut hfirst hmade hdata (Nat.le_refl _), ← extractRest_of_skip hskip]
        exact ⟨p', extractRest_of_none rfl⟩
      · rw [extractRest_cut hfirst hmade hdata (hrest.start_le_stop hm)]
        exact ih hending hok hm

end

/-- An archive that is extracted with success is found malformed if it is cut
anywhere inside one of its members, be it in the headers, in the data or in
what fills up the last block. Cut between two members it is extracted as the
members before the cut.

Whenever an extraction is successful, from whatever source, each file has been
written with as much data as the archive states for it, and is found with this
data right after that. -/
theorem truncated_archive_never_passes (t : Tree) (destination : Route) :
    (∀ content q, extractPlain t destination content = (q, .ok ()) →
      ∃ ms stop, (Reader.ofSource (.ofBytes content)).Holds ms stop ∧ stop ≤ content.length ∧
        (∀ n, 0 < n → n ≤ stop → (∀ m ∈ ms, m.stop ≠ n) →
          ∃ p, extractPlain t destination (content.take n) = (p, .error malformed)) ∧
        ∀ m ∈ ms, ∃ p, extractPlain t destination (content.take m.stop) = (p, .ok ())) ∧
    ∀ s q, extractSource t destination s = (q, .ok ()) →
      ∃ ms stop, (Reader.ofSource s).Holds ms stop ∧
        extractMembers destination ⟨t, 0, 0, 0, 0⟩ ms = (q, .ok ()) ∧
        q.bytes = (fileSizes ms).sum ∧
        ∀ before m after, ms = before ++ m :: after → m.kind = .regular →
          ∃ p p', extractMembers destination ⟨t, 0, 0, 0, 0⟩ before = (p, .ok ()) ∧
            extractMember p destination m = (p', .ok ()) ∧ Written destination p m p' := by
  constructor
  · intro content q hok
    obtain ⟨ms, stop, hms, hmade⟩ := exists_holds_of_ok hok
    have hcut (n : Nat) : extractPlain t destination (content.take n) =
        extractRest destination ⟨t, 0, 0, 0, 0⟩ ((Reader.ofSource (.ofBytes content)).cut n) :=
      extractSource_eq t destination (.ofBytes (content.take n))
    have hlength := hms.stop_le_length
    refine ⟨ms, stop, hms, (Nat.zero_add content.length) ▸ hlength, fun n hpos hn hne => ?_,
      fun m hm => ?_⟩
    · rw [hcut]
      exact extractRest_cut_malformed hms rfl hmade hpos hn hne
    · rw [hcut]
      exact extractRest_cut_between hms rfl hmade hm
  · intro s q hok
    obtain ⟨ms, stop, hms, hmade⟩ := exists_holds_of_ok hok
    refine ⟨ms, stop, hms, hmade, (bytes_of_holds hms hmade).trans (Nat.zero_add _), ?_⟩
    intro before m after hsplit hkind
    exact written_of_holds hms hmade hsplit hkind

/-- A file of two bytes, cut behind the first of them. -/
theorem truncated_archive_never_passes_of_two_bytes :
    let destination : Route := [bytes "out"]
    let t : Tree := ⟨[(destination, .directory)]⟩
    let content := introduce (byte '0') (bytes "f") 2 ++ (fill (bytes "hi") ++ List.replicate 1024 0)
    ∃ q, extractPlain t destination content = (q, .ok ()) ∧ q.bytes = 2 ∧
      q.tree.get? [bytes "out", bytes "f"] = some (.file (bytes "hi")) ∧
      ∃ p, extractPlain t destination (content.take 513) = (p, .error malformed) := by
  intro destination t content
  have hfront : Introduces .regular 2 (bytes "f") (introduce (byte '0') (bytes "f") 2) :=
    introduces_introduce (byte '0') (by decide) (by decide) (by decide)
  have hlength : (introduce (byte '0') (bytes "f") 2).length = 512 := by decide +kernel
  let rest := fill (bytes "hi") ++ List.replicate 1024 0
  let m : Member := ⟨.regular, bytes "f", 2, ⟨.ofBytes rest, fillUp 2, 512⟩⟩
  have hfirst : (Reader.ofSource (.ofBytes content)).nextMember = .ok (some m) := by
    have hread := @Reader.nextMember_of_introduces .regular 2 0 (bytes "f") _ hfront (by decide)
      (by rw [hlength]; decide +kernel) rest
    rw [hlength] at hread
    exact hread
  have hend : m.reader.nextMember = .ok none := by
    have hskip := Reader.skip_of_isFilled (isFilled_fill (bytes "hi")) 512 (List.replicate 1024 0)
    have hzeros := nextMember_of_zeros (512 + (fill (bytes "hi")).length) (List.replicate 512 0)
    rw [blockSize, List.replicate_append_replicate] at hzeros
    exact (Reader.nextMember_of_skip hskip).symm.trans hzeros
  have hholds : (Reader.ofSource (.ofBytes content)).Holds [m] m.stop := .member hfirst (.done hend)
  obtain ⟨q, hok⟩ : ∃ q, extractPlain t destination content = (q, .ok ()) := by
    have hroute : memberRoute (bytes "f") = .ok [bytes "f"] := by
      rw [memberRoute_of_not_isUnsafe]
      · exact congrArg Except.ok (by decide +kernel)
      · rw [IsUnsafe, decodeLossy_of_ascii (ascii_of_all (by decide +kernel))]
        decide +kernel
    have hempty : extractMember ⟨t, 0, 0, 0, 0⟩ destination
        ⟨.regular, bytes "f", 0, ⟨.ofBytes [], 0, 0⟩⟩ =
          (⟨t.set [bytes "out", bytes "f"] (.file []), 1, 0, 0, 1⟩, .ok ()) := by
      rw [extractMember, if_neg (by decide), hroute]
      rfl
    obtain ⟨q, hq⟩ : ∃ q, extractMember ⟨t, 0, 0, 0, 0⟩ destination m = (q, .ok ()) :=
      extractMember_of_clean hempty rfl rfl rfl
    rw [extractPlain, extractSource_eq, extractRest_of_holds hholds, extractMembers, hq]
    exact ⟨q, rfl⟩
  obtain ⟨hcuts, hwritten⟩ := truncated_archive_never_passes t destination
  obtain ⟨ms, stop, hms, -, hcut, -⟩ := hcuts content q hok
  obtain ⟨ms', stop', hms', -, hbytes, -⟩ := hwritten _ q hok
  obtain ⟨rfl, rfl⟩ := hms.unique hholds
  obtain ⟨rfl, -⟩ := hms'.unique hholds
  have hfound : (extractPlain t destination content).1.tree.get? [bytes "out", bytes "f"] =
      some (.file (bytes "hi")) := by decide +kernel
  rw [hok] at hfound
  exact ⟨q, hok, hbytes, hfound, hcut 513 (by decide) (by decide)
    (List.forall_mem_singleton.mpr (by decide))⟩

end GlyphSearch.Tar
