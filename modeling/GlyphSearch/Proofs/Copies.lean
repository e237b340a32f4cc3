import GlyphSearch.Proofs.RoundTrip
import GlyphSearch.Proofs.Scratch
import GlyphSearch.Proofs.UsableSettings

/-!
# Copies of a directory

A directory is read by paths that are seen from it. As long as these lead down
and meet no link, what they lead to depends on what is in the directory alone,
and not on where the directory is. So reading from a directory is reading from
the plan of what is in it, as if that were a tree of its own; and wherever there
is a copy, the same dataset is opened in it.

Only the length of a path depends on where it is seen from.
-/

namespace GlyphSearch.Files

namespace Tree

/-- Below a route there is what a plan says, and no link. -/
structure IsCopy (t : Tree) (r : Route) (plan : Tree) : Prop where
  get?_eq : ∀ q, t.get? (r ++ q) = plan.get? q
  linkFree : ∀ q target, plan.get? q ≠ some (.link target)

variable {t plan : Tree} {r : Route}

theorem IsCopy.walkWith_eq (h : t.IsCopy r plan)
    {goOn goOn' : Route → List Name → Except FileFault Route} {names : List Name} {q : Route}
    (hdown : dotDot ∉ names) :
    t.walkWith goOn (r ++ q) names = (plan.walkWith goOn' q names).map (r ++ ·) := by
  induction names generalizing q with
  | nil => rfl
  | cons name rest ih =>
      have hup : name ≠ dotDot := fun heq => hdown (heq ▸ List.mem_cons_self)
      have hrest : dotDot ∉ rest := fun hmem => hdown (List.mem_cons_of_mem _ hmem)
      rw [walkWith, walkWith, h.get?_eq]
      split
      · rfl
      · split
        · exact ih hrest
        · split
          · rfl
          · rw [List.append_assoc, h.get?_eq]
            -- There is no link, so neither walk asks how to go on behind one.
            split
            · next target hlink => exact absurd hlink (h.linkFree _ target)
            · exact ih hrest
      · rfl

theorem exists_walkWith (t : Tree) (links : Nat) : ∃ goOn, t.walk links = t.walkWith goOn := by
  cases links with
  | zero => exact ⟨_, rfl⟩
  | succ links => exact ⟨_, rfl⟩

theorem IsCopy.walk_eq (h : t.IsCopy r plan) (links links' : Nat) {names : List Name} {q : Route}
    (hdown : dotDot ∉ names) :
    t.walk links (r ++ q) names = (plan.walk links' q names).map (r ++ ·) := by
  obtain ⟨goOn, hwalk⟩ := t.exists_walkWith links
  obtain ⟨goOn', hwalk'⟩ := plan.exists_walkWith links'
  rw [hwalk, hwalk']
  exact h.walkWith_eq hdown

/-- Behind names that lead somewhere the walk goes on from there, with what is
left of the links. -/
theorem Leads.walk_append {links : Nat} {start : Route} {names : List Name}
    (h : t.Leads links start names r) (more : List Name) :
    ∃ links', t.walk links start (names ++ more) = t.walk links' r more := by
  induction h with
  | @done links start => exact ⟨links, rfl⟩
  | @stay links start r rest hstart _ ih =>
      obtain ⟨links', hih⟩ := ih
      refine ⟨links', ?_⟩
      rw [← hih]
      obtain ⟨goOn, hwalk⟩ := t.exists_walkWith links
      rw [hwalk, List.cons_append, walkWith, hstart]
      exact if_pos rfl
  | @up links start r rest hstart _ ih =>
      obtain ⟨links', hih⟩ := ih
      refine ⟨links', ?_⟩
      rw [← hih]
      obtain ⟨goOn, hwalk⟩ := t.exists_walkWith links
      rw [hwalk, List.cons_append, walkWith, hstart]
      exact (if_neg (by decide)).trans (if_pos rfl)
  | @down links start r name rest hstart hdot hup hshort hlink _ ih =>
      obtain ⟨links', hih⟩ := ih
      refine ⟨links', ?_⟩
      rw [← hih]
      obtain ⟨goOn, hwalk⟩ := t.exists_walkWith links
      rw [hwalk, List.cons_append, walkWith, hstart]
      dsimp only
      rw [if_neg hdot, if_neg hup, if_neg (Nat.not_lt_of_le hshort)]
      split
      · next target heq => exact absurd heq (hlink target)
      · rfl
  | @link links start r name rest target hstart hdot hup hshort hlink _ ih =>
      obtain ⟨links', hih⟩ := ih
      refine ⟨links', ?_⟩
      rw [← hih, List.append_assoc, walk, List.cons_append, walkWith, hstart]
      dsimp only
      rw [if_neg hdot, if_neg hup, if_neg (Nat.not_lt_of_le hshort), hlink]

theorem IsCopy.follow_eq (h : t.IsCopy r plan) {start : Route} {names more : List Name}
    (hleads : t.Leads linkLimit start names r) (hdown : dotDot ∉ more) :
    t.follow start (names ++ more) = (plan.follow [] more).map fun found => (r ++ found.1, found.2) := by
  obtain ⟨links, hwalk⟩ := hleads.walk_append more
  have hplan := h.walk_eq links linkLimit (q := []) hdown
  rw [List.append_nil] at hplan
  rw [follow, follow, hwalk, hplan]
  cases plan.walk linkLimit [] more with
  | error fault => rfl
  | ok q =>
      simp only [Except.map, bind, Except.bind, h.get?_eq]
      split <;> rfl

end Tree

/-! ## Paths that lead down -/

namespace Path

/-- A path to something in the directory that it is seen from. -/
structure LeadsDown (q : Path) : Prop where
  ne_nil : q ≠ []
  relative : q.isAbsolute = false
  down : dotDot ∉ q.segments

variable {q : Path}

theorem LeadsDown.dotDot_not_mem_steps (h : q.LeadsDown) : dotDot ∉ q.steps := by
  rw [steps, List.mem_append]
  rintro (hmem | hmem)
  · exact h.down hmem
  · split at hmem
    · exact absurd (List.mem_singleton.mp hmem) (by decide)
    · cases hmem

theorem LeadsDown.join (h : q.LeadsDown) {name : Name} (hname : IsFileName name) :
    (q.join name).LeadsDown where
  ne_nil := join_ne_nil h.ne_nil name
  relative := (isAbsolute_join (isAbsolute_of_isFileName hname) q).trans h.relative
  down := by
    rw [segments_join (isAbsolute_of_isFileName hname), segments_of_isFileName hname,
      List.mem_append, List.mem_singleton]
    rintro (hmem | hmem)
    · exact h.down hmem
    · exact hname.2.2.2.1 hmem.symm

/-- What a directory's path puts before the paths of what is in it. -/
theorem exists_front (p : Path) :
    ∃ front, ∀ q : Path, q.isAbsolute = false → p.join q = front ++ q := by
  by_cases hp : p = []
  · refine ⟨[], fun q hrelative => ?_⟩
    rw [Path.join, if_pos (.inr hp), List.nil_append]
  · cases hend : p.endsInSlash with
    | true =>
        refine ⟨p, fun q hrelative => ?_⟩
        rw [Path.join, hrelative, hend, if_neg (by simp [hp]), if_pos rfl]
    | false =>
        refine ⟨p ++ [slash], fun q hrelative => ?_⟩
        rw [Path.join, hrelative, hend, if_neg (by simp [hp]), if_neg (by simp), List.append_assoc,
          List.singleton_append]

/-- What is in a directory in a directory is seen from both. -/
theorem join_join (h : q.LeadsDown) {name : Name} (hname : IsFileName name) (p : Path) :
    (p.join q).join name = p.join (q.join name) := by
  obtain ⟨front, hfront⟩ := exists_front p
  have habsolute := isAbsolute_of_isFileName hname
  have hinner : q.join name = if q.endsInSlash then q ++ name else q ++ slash :: name := by
    rw [Path.join, habsolute]
    exact if_neg (by simp [h.ne_nil])
  have houter : (front ++ q).join name =
      if q.endsInSlash then front ++ q ++ name else front ++ q ++ slash :: name := by
    rw [Path.join, habsolute, endsInSlash_append h.ne_nil]
    exact if_neg (by simp [h.ne_nil])
  rw [hfront q h.relative, hfront _ (h.join hname).relative, houter, hinner]
  split <;> exact List.append_assoc ..

theorem length_le_join (hrelative : q.isAbsolute = false) (p : Path) :
    q.length ≤ (p.join q).length := by
  obtain ⟨front, hfront⟩ := exists_front p
  rw [hfront q hrelative, List.length_append]
  exact Nat.le_add_left ..

theorem mem_join_of_mem (hrelative : q.isAbsolute = false) (p : Path) {b : UInt8} (hb : b ∈ q) :
    b ∈ p.join q := by
  obtain ⟨front, hfront⟩ := exists_front p
  rw [hfront q hrelative]
  exact List.mem_append_right _ hb

end Path

namespace Tree

variable {t plan : Tree} {workingDirectory r : Route} {p q : Path}

/-- Whether a path can be one of a file is up to the path in the directory, if
there is room for it. -/
theorem checkPath_join (hp : checkPath p = .ok ()) (hq : q.LeadsDown)
    (hroom : (p.join q).length < pathLimit) : checkPath (p.join q) = checkPath q := by
  obtain ⟨hzero, hne, -⟩ := checkPath_eq_ok.mp hp
  have hshort := Nat.lt_of_le_of_lt (Path.length_le_join hq.relative p) hroom
  rw [checkPath, checkPath, if_neg hq.ne_nil, if_neg (Path.join_ne_nil hne q),
    if_neg (Nat.not_le.mpr hroom), if_neg (Nat.not_le.mpr hshort)]
  have hsame : (p.join q).contains 0 = q.contains 0 := by
    rw [Bool.eq_iff_iff, List.contains_iff_mem, List.contains_iff_mem]
    refine ⟨fun hmem => ?_, Path.mem_join_of_mem hq.relative p⟩
    rcases Path.mem_join hmem with hmem | hmem | hmem
    · exact absurd hmem hzero
    · cases hmem
    · exact hmem
  rw [hsame]

/-- What a path in a copy leads to is what it leads to in the plan. -/
theorem IsCopy.find_join (h : t.IsCopy r plan)
    (hthere : t.find workingDirectory p = .ok (r, .directory)) (hq : q.LeadsDown)
    (hroom : (p.join q).length < pathLimit) :
    t.find workingDirectory (p.join q) =
      (plan.find [] q).map fun found => (r ++ found.1, found.2) := by
  obtain ⟨_, hchecked, hfollow⟩ := bind_eq_ok.mp hthere
  obtain ⟨hleads, -⟩ := follow_eq_ok.mp hfollow
  rw [find, find, checkPath_join hchecked hq hroom, Path.isAbsolute_join hq.relative, hq.relative,
    Path.steps_join hq.relative hq.ne_nil, h.follow_eq hleads.segments hq.dotDot_not_mem_steps]
  cases checkPath q <;> rfl

theorem IsCopy.read_join (h : t.IsCopy r plan)
    (hthere : t.find workingDirectory p = .ok (r, .directory)) (hq : q.LeadsDown)
    (hroom : (p.join q).length < pathLimit) :
    t.read workingDirectory (p.join q) = plan.read [] q := by
  rw [read, read, h.find_join hthere hq hroom]
  cases plan.find [] q with
  | error fault => rfl
  | ok found =>
      obtain ⟨s, n⟩ := found
      cases n <;> rfl

theorem IsCopy.pathExists_join (h : t.IsCopy r plan)
    (hthere : t.find workingDirectory p = .ok (r, .directory)) (hq : q.LeadsDown)
    (hroom : (p.join q).length < pathLimit) :
    t.pathExists workingDirectory (p.join q) = plan.pathExists [] q := by
  rw [pathExists, pathExists, h.find_join hthere hq hroom]
  cases plan.find [] q <;> rfl

end Tree

end GlyphSearch.Files

namespace GlyphSearch.Dataset

open Files Index Text

/-! ## Opening a dataset in a copy -/

namespace Layout

/-- The paths that are read when a dataset is opened. -/
def paths (layout : Layout) : List Path :=
  [layout.indexPath.join headerFile, layout.indexPath.join vectorsFile, layout.labelsPath,
    layout.metadataPath]

/-- A layout whose paths stay in the dataset's directory. -/
structure IsInside (layout : Layout) : Prop where
  index : layout.indexPath.LeadsDown
  labels : layout.labelsPath.LeadsDown
  metadata : layout.metadataPath.LeadsDown

/-- There is room for the paths of a layout behind a directory's path. -/
def FitsBehind (layout : Layout) (p : Path) : Prop :=
  ∀ q ∈ layout.paths, (p.join q).length < pathLimit

instance (layout : Layout) (p : Path) : Decidable (layout.FitsBehind p) :=
  inferInstanceAs (Decidable (∀ q ∈ layout.paths, _))

end Layout

variable {t plan : Tree} {workingDirectory r : Route} {directory : Directory} {layout : Layout}

theorem openWith_congr {read read' : Name → Except FileFault Bytes}
    (hheader : read headerFile = read' headerFile)
    (hvectors : read vectorsFile = read' vectorsFile) : Flat.openWith read = Flat.openWith read' := by
  rw [Flat.openWith, Flat.openWith, hheader, hvectors]

section

variable {t' : Tree} {workingDirectory' : Route} {directory' : Directory} {layout' : Layout}
  (hlabels : t.read workingDirectory (directory.path.join layout.labelsPath) =
    t'.read workingDirectory' (directory'.path.join layout'.labelsPath))
  (hmetadata : readMetadata t workingDirectory (directory.path.join layout.metadataPath) =
    readMetadata t' workingDirectory' (directory'.path.join layout'.metadataPath))

include hlabels hmetadata

/-- What is opened in a directory is up to what is read there. -/
theorem openAround_congr (index : Flat) :
    openAround index t workingDirectory directory layout =
      (openAround index t' workingDirectory' directory' layout').map fun d =>
        { d with directory := some directory } := by
  rw [openAround, openAround]
  dsimp only
  rw [hlabels, hmetadata]
  cases (t'.read workingDirectory' (directory'.path.join layout'.labelsPath)).mapError
      Error.file with
  | error e => rfl
  | ok content =>
      dsimp only [bind, Except.bind]
      cases (parseLabels content).mapError Error.file with
      | error e => rfl
      | ok labels =>
          dsimp only
          cases readMetadata t' workingDirectory'
              (directory'.path.join layout'.metadataPath) with
          | error e => rfl
          | ok metadata =>
              dsimp only
              cases make index.toEngine labels with
              | error e => rfl
              | ok d =>
                  dsimp only
                  cases d.withMetadata metadata <;> rfl

theorem openAt_congr
    (hindex : openIndex t workingDirectory directory layout =
      openIndex t' workingDirectory' directory' layout') :
    openAt t workingDirectory directory layout =
      (openAt t' workingDirectory' directory' layout').map fun d =>
        { d with directory := some directory } := by
  rw [openAt, openAt, hindex]
  cases openIndex t' workingDirectory' directory' layout' with
  | error e => rfl
  | ok index => exact openAround_congr hlabels hmetadata index

end

section

variable (h : t.IsCopy r plan)
  (hthere : t.find workingDirectory directory.path = .ok (r, .directory))
  (hinside : layout.IsInside) (hroom : layout.FitsBehind directory.path)

include h hthere hinside hroom

theorem openIndex_of_isCopy :
    openIndex t workingDirectory directory layout = openIndex plan [] (.kept []) layout := by
  have hread : ∀ name, IsFileName name → layout.indexPath.join name ∈ layout.paths →
      t.read workingDirectory ((directory.path.join layout.indexPath).join name) =
        plan.read [] ((Path.join [] layout.indexPath).join name) := by
    intro name hname hmem
    have hseen : Path.join [] layout.indexPath = layout.indexPath := if_pos (.inr rfl)
    rw [Path.join_join hinside.index hname, hseen]
    exact h.read_join hthere (hinside.index.join hname) (hroom _ hmem)
  exact openWith_congr (hread _ Flat.isFileName_headerFile (by simp [Layout.paths]))
    (hread _ Flat.isFileName_vectorsFile (by simp [Layout.paths]))

/-- A dataset that is opened in a copy is the one that the plan holds. -/
theorem openAt_of_isCopy :
    openAt t workingDirectory directory layout =
      (openAt plan [] (.kept []) layout).map fun d => { d with directory := some directory } := by
  have hseen : ∀ q, Path.join (Directory.kept []).path q = q := fun q => if_pos (.inr rfl)
  refine openAt_congr ?_ ?_ (openIndex_of_isCopy h hthere hinside hroom)
  · rw [hseen]
    exact h.read_join hthere hinside.labels (hroom _ (by simp [Layout.paths]))
  · have hfits := hroom layout.metadataPath (by simp [Layout.paths])
    rw [hseen, readMetadata, readMetadata, h.pathExists_join hthere hinside.metadata hfits,
      h.read_join hthere hinside.metadata hfits]

end

/-! ## A small dataset -/

/-- A dataset of one vector, with one more file, whose name begins like a
compressed file. -/
def smallPlan : Tree := ⟨[
  ([[0x1f, 0x8b]], .file []),
  ([bytes "anng"], .directory),
  ([bytes "anng", Index.headerFile], .file (bytes "\x7b\"dimension\": 1, \"count\": 1\x7d")),
  ([bytes "anng", Index.vectorsFile], .file (Index.encodeComponents [Single.zero])),
  ([bytes "names.txt"], .file (bytes "a\n"))]⟩

/-- A disk with the dataset in a directory, an archive beside it, and room for
temporary directories. -/
def shelf (archive : Bytes) : Disk where
  tree := ⟨[([bytes "data"], .directory), ([bytes "a"], .file archive),
    ([bytes "tmp"], .directory)] ++
      smallPlan.nodes.map fun node => (bytes "data" :: node.1, node.2)⟩
  workingDirectory := []
  scratch := bytes "/tmp"
  made := 0

theorem get?_shelf (archive : Bytes) (q : Route) :
    (shelf archive).tree.get? ([bytes "data"] ++ q) = smallPlan.get? q := by
  have hmoved : ∀ nodes : List (Route × Node),
      (nodes.map fun node => (bytes "data" :: node.1, node.2)).lookup (bytes "data" :: q) =
        nodes.lookup q := by
    intro nodes
    induction nodes with
    | nil => rfl
    | cons node rest ih =>
        rw [List.map_cons, List.lookup_cons, List.lookup_cons, ih]
        simp
  cases q with
  | nil => rfl
  | cons name rest =>
      rw [Tree.get?, Tree.get?, if_neg (by simp), if_neg (by simp)]
      exact hmoved smallPlan.nodes

theorem read_shelf (archive : Bytes) : (shelf archive).read (bytes "/a") = .ok archive := rfl

end GlyphSearch.Dataset

namespace GlyphSearch.Config

open Files Text

theorem encode_ne_nil {s : String} (h : s ≠ "") : encode s ≠ [] := by
  intro hempty
  rw [encode, toList_eq_data] at hempty
  have hsize : s.toUTF8.size = 0 := congrArg List.length hempty
  exact h (String.utf8ByteSize_eq_zero_iff.mp hsize)

theorem StaysInside.leadsDown_encode {value : String} (h : StaysInside value) :
    Path.LeadsDown (encode value) := by
  refine ⟨encode_ne_nil ?_, h.isAbsolute_encode, h.dotDot_not_mem_segments⟩
  rintro rfl
  obtain ⟨c, hc, -⟩ := h.not_blank
  cases hc

/-- Settings that are accepted lay out the dataset in its directory. -/
theorem isInside_of_validate {s : Settings} (h : validate s = .ok ()) :
    s.dataset.layout.IsInside :=
  have husable := validate_eq_ok_iff.mp h
  ⟨husable.index.leadsDown_encode, husable.labels.leadsDown_encode,
    husable.metadata.leadsDown_encode⟩

end GlyphSearch.Config
