import GlyphSearch.Proofs.Archiver
import Mathlib.Control.Monad.Basic

/-!
# Extraction stays below its destination

What an archive holds decides the names that extraction follows, and names can
lead anywhere: `..` leads up, and a link leads wherever its path does. Two
facts keep them in. The route of a member has no `..` among its names, since a
member with one is refused; and there is no link below the destination to
begin with, and extraction makes none. So every name that is followed leads
from a place below the destination to another one.

`Confined` says what has become of a tree: whatever is no longer as it was is
a directory or a file strictly below the destination. It is kept by each step
of an extraction, whether or not the step succeeds, and so it holds however
the extraction ends.
-/

namespace GlyphSearch.Files.Tree

/-- Neither a route nor anything below it is a link. -/
def LinkFree (t : Tree) (base : Route) : Prop :=
  ∀ r target, base <+: r → t.get? r ≠ some (.link target)

/-- The second tree differs from the first only in directories and files
strictly below a route. -/
def Confined (base : Route) (t t' : Tree) : Prop :=
  ∀ r, t'.get? r = t.get? r ∨
    (base <+: r ∧ r ≠ base ∧
      (t'.get? r = some .directory ∨ ∃ content, t'.get? r = some (.file content)))

namespace Confined

variable {base : Route} {t t' t'' : Tree}

theorem refl (base : Route) (t : Tree) : Confined base t t := fun _ => Or.inl rfl

theorem trans (h : Confined base t t') (h' : Confined base t' t'') :
    Confined base t t'' := by
  intro r
  rcases h' r with hsame | hnew
  · rw [hsame]
    exact h r
  · exact Or.inr hnew

theorem get?_base (h : Confined base t t') : t'.get? base = t.get? base := by
  rcases h base with hsame | ⟨_, hne, _⟩
  · exact hsame
  · exact absurd rfl hne

theorem get?_outside (h : Confined base t t') {r : Route} (hr : ¬ base <+: r) :
    t'.get? r = t.get? r := by
  rcases h r with hsame | ⟨hbelow, _⟩
  · exact hsame
  · exact absurd hbelow hr

theorem linkFree (h : Confined base t t') (hlinks : t.LinkFree base) :
    t'.LinkFree base := by
  intro r target hr hlink
  rcases h r with hsame | ⟨_, _, hdir | ⟨content, hfile⟩⟩
  · exact hlinks r target hr (hsame ▸ hlink)
  · rw [hdir] at hlink
    cases hlink
  · rw [hfile] at hlink
    cases hlink

end Confined

variable {base : Route} {t : Tree}

theorem confined_set {r : Route} {n : Node} (hr : base <+: r) (hne : r ≠ base)
    (hn : n = .directory ∨ ∃ content, n = .file content) :
    Confined base t (t.set r n) := by
  have hnil : r ≠ [] := by
    rintro rfl
    exact hne (List.prefix_nil.mp hr).symm
  intro s
  by_cases hs : s = r
  · subst hs
    rw [get?_set_self t n hnil]
    refine Or.inr ⟨hr, hne, ?_⟩
    rcases hn with rfl | ⟨content, rfl⟩
    · exact Or.inl rfl
    · exact Or.inr ⟨content, rfl⟩
  · exact Or.inl (get?_set_of_ne t n hs)

theorem prefix_snoc {start : Route} (h : base <+: start) (name : Name) :
    base <+: start ++ [name] := h.trans (List.prefix_append start [name])

theorem snoc_ne_base {start : Route} (h : base <+: start) (name : Name) :
    start ++ [name] ≠ base := by
  intro heq
  have hlen := h.length_le
  rw [← heq, List.length_append, List.length_singleton] at hlen
  omega

/-! ## Following names

Without a link on the way, names lead down, or stay where they are. -/

theorem walkWith_below (hlinks : t.LinkFree base)
    {goOn : Route → List Name → Except FileFault Route} :
    ∀ {names : List Name} {start r : Route}, base <+: start → dotDot ∉ names →
      t.walkWith goOn start names = .ok r → base <+: r := by
  intro names
  induction names with
  | nil =>
      intro start r hstart _ h
      rw [walkWith] at h
      cases h
      exact hstart
  | cons name rest ih =>
      intro start r hstart hsafe h
      have hname : name ≠ dotDot := fun heq => hsafe (by simp [heq])
      have hrest : dotDot ∉ rest := fun hmem => hsafe (List.mem_cons_of_mem _ hmem)
      rw [walkWith] at h
      split at h
      · cases h
      · split at h
        · exact ih hstart hrest h
        · split at h
          · cases h
          · split at h
            · next target hlink =>
                exact absurd hlink (hlinks _ target (prefix_snoc hstart name))
            · exact ih (prefix_snoc hstart name) hrest h
      · cases h

theorem walk_below (hlinks : t.LinkFree base) {links : Nat} {start r : Route}
    {names : List Name} (hstart : base <+: start) (hsafe : dotDot ∉ names)
    (h : t.walk links start names = .ok r) : base <+: r := by
  cases links with
  | zero => exact walkWith_below hlinks hstart hsafe h
  | succ n => exact walkWith_below hlinks hstart hsafe h

theorem makeDirectories_confined :
    ∀ {names : List Name} {t : Tree} {start : Route}, t.LinkFree base → base <+: start →
      dotDot ∉ names → Confined base t (t.makeDirectories start names).1 := by
  intro names
  induction names with
  | nil =>
      intro t start _ _ _
      exact Confined.refl base t
  | cons name rest ih =>
      intro t start hlinks hstart hsafe
      have hname : name ≠ dotDot := fun heq => hsafe (by simp [heq])
      have hrest : dotDot ∉ rest := fun hmem => hsafe (List.mem_cons_of_mem _ hmem)
      have hhere := prefix_snoc hstart name
      rw [makeDirectories]
      split
      · exact ih hlinks hstart hrest
      · dsimp only
        split
        · split
          · exact Confined.refl base t
          · have hset : Confined base t (t.set (start ++ [name]) .directory) :=
              confined_set hhere (snoc_ne_base hstart name) (Or.inl rfl)
            exact hset.trans (ih (hset.linkFree hlinks) hhere hrest)
        · exact ih hlinks hhere hrest
        · next target hlink => exact absurd hlink (hlinks _ target hhere)
        · exact Confined.refl base t

theorem writeFile_confined (hlinks : t.LinkFree base) (hbase : t.get? base = some .directory)
    {start : Route} {names : List Name} (hstart : base <+: start) (hsafe : dotDot ∉ names)
    (content : Bytes) : Confined base t (t.writeFile start names content).1 := by
  rw [writeFile]
  split
  · exact Confined.refl base t
  · next r hwalk =>
      have hr : base <+: r := walk_below hlinks hstart hsafe hwalk
      -- The base itself is a directory, which no file takes the place of.
      have hset : t.get? r ≠ some .directory → Confined base t (t.set r (.file content)) := by
        intro hnot
        refine confined_set hr ?_ (Or.inr ⟨content, rfl⟩)
        rintro rfl
        exact hnot hbase
      split
      · next hnone => exact hset (by rw [hnone]; simp)
      · next old hfile => exact hset (by rw [hfile]; simp)
      · exact Confined.refl base t
      · exact Confined.refl base t
      · exact Confined.refl base t

end GlyphSearch.Files.Tree

/-! ## Extraction -/

namespace GlyphSearch.Tar

open Files Text

/-- The names of a member's route all lead down. -/
theorem dotDot_not_mem_memberRoute {raw : Path} {route : Route}
    (h : memberRoute raw = .ok route) : dotDot ∉ route := by
  rw [memberRoute] at h
  split at h
  · cases h
  · split at h
    · cases h
    · next hok =>
        cases h
        exact fun hmem => hok (Or.inr hmem)

variable {base : Route} {t : Tree}

theorem Step.confined_andThen {s : Step} {next : Progress → Step}
    (hs : t.Confined base s.1.tree)
    (hnext : ∀ p : Progress, t.Confined base p.tree → t.Confined base (next p).1.tree) :
    t.Confined base (s.andThen next).1.tree := by
  obtain ⟨p, result⟩ := s
  cases result with
  | ok _ => exact hnext p hs
  | error e => exact hs

theorem Progress.confined_changeTree {p : Progress} {change : Tree → Tree × Done}
    (hp : t.Confined base p.tree) (hchange : p.tree.Confined base (change p.tree).1) :
    t.Confined base (p.changeTree change).1.tree := hp.trans hchange

/-- What every step of an extraction relies on: the destination is a directory
without links, and the tree that the step meets has been changed only
below it. -/
structure Ready (base : Route) (t : Tree) (p : Progress) : Prop where
  isDirectory : t.get? base = some .directory
  linkFree : t.LinkFree base
  confined : t.Confined base p.tree

namespace Ready

variable {p : Progress}

theorem next (h : Ready base t p) {q : Progress} (hq : t.Confined base q.tree) :
    Ready base t q := ⟨h.isDirectory, h.linkFree, hq⟩

theorem makeDirectories (h : Ready base t p) {route : Route} (hsafe : dotDot ∉ route) :
    t.Confined base (p.makeDirectories base route).1.tree := by
  rw [Progress.makeDirectories]
  split
  · exact h.confined
  · refine Step.confined_andThen h.confined fun q hq => ?_
    exact Progress.confined_changeTree hq
      (Tree.makeDirectories_confined (hq.linkFree h.linkFree) (List.prefix_refl base) hsafe)

theorem writeFile (h : Ready base t p) {route : Route} (hsafe : dotDot ∉ route)
    (content : Bytes) :
    t.Confined base (p.changeTree fun t => t.writeFile base route content).1.tree := by
  have hbase : p.tree.get? base = some .directory := by
    rw [h.confined.get?_base]
    exact h.isDirectory
  exact Progress.confined_changeTree h.confined
    (Tree.writeFile_confined (h.confined.linkFree h.linkFree) hbase (List.prefix_refl base)
      hsafe content)

theorem extractDirectory (h : Ready base t p) {route : Route} (hsafe : dotDot ∉ route) :
    t.Confined base (extractDirectory p base route).1.tree := by
  rw [Tar.extractDirectory]
  split
  · exact h.confined
  · exact Step.confined_andThen (h.makeDirectories hsafe) fun q hq => hq

theorem extractFile (h : Ready base t p) {route : Route} (hsafe : dotDot ∉ route)
    (m : Member) : t.Confined base (extractFile p base route m).1.tree := by
  have habove : dotDot ∉ route.dropLast := fun hmem => hsafe (List.dropLast_subset route hmem)
  rw [Tar.extractFile]
  split
  · exact h.confined
  · refine Step.confined_andThen (h.makeDirectories habove) fun p₁ hp₁ => ?_
    refine Step.confined_andThen hp₁ fun p₂ hp₂ => ?_
    refine Step.confined_andThen ((h.next hp₂).writeFile hsafe _) fun p₃ hp₃ => ?_
    exact Step.confined_andThen hp₃ fun p₄ hp₄ => hp₄

theorem extractMember (h : Ready base t p) (m : Member) :
    t.Confined base (extractMember p base m).1.tree := by
  rw [Tar.extractMember]
  split
  · exact h.confined
  · split
    · exact h.confined
    · next route hroute =>
        have hsafe := dotDot_not_mem_memberRoute hroute
        split
        · exact h.extractDirectory hsafe
        · exact h.extractFile hsafe m
        · exact h.confined

/-- The run of an extraction, by induction on its fuel: each member finds the
tree as `Ready` describes it, and leaves it so. -/
theorem extractFrom :
    ∀ {fuel : Nat} {p : Progress} {r : Reader}, Ready base t p →
      t.Confined base (extractFrom base fuel p r).1.tree := by
  intro fuel
  induction fuel with
  | zero =>
      intro p r h
      exact h.confined
  | succ fuel ih =>
      intro p r h
      rw [Tar.extractFrom]
      split
      · exact h.confined
      · exact h.confined
      · next m _ =>
          exact Step.confined_andThen (h.extractMember m) fun q hq => ih (h.next hq)

end Ready

theorem extractSource_confined (hbase : t.get? base = some .directory)
    (hlinks : t.LinkFree base) (source : Source) :
    t.Confined base (extractSource t base source).1.tree :=
  Ready.extractFrom ⟨hbase, hlinks, Tree.Confined.refl base t⟩

theorem extract_confined (hbase : t.get? base = some .directory) (hlinks : t.LinkFree base)
    (content : Bytes) : t.Confined base (extract t base content).1.tree := by
  rw [extract]
  split
  · exact extractSource_confined hbase hlinks _
  · exact extractSource_confined hbase hlinks _

/-- However an extraction ends, of whatever bytes, compressed or not: outside
of its destination nothing has been made, changed or removed, the destination
is still a directory, whatever is new or changed is a directory or a file, and
there is still no link below the destination. -/
theorem extraction_stays_below_destination {t : Tree} {destination : Route} (content : Bytes)
    (hthere : t.get? destination = some .directory)
    (hlinks : ∀ r target, destination <+: r → t.get? r ≠ some (.link target)) :
    ∀ outcome ∈ [extract t destination content, extractPlain t destination content],
      (∀ r, ¬ destination <+: r → outcome.1.tree.get? r = t.get? r) ∧
      outcome.1.tree.get? destination = some .directory ∧
      (∀ r, outcome.1.tree.get? r ≠ t.get? r →
        outcome.1.tree.get? r = some .directory ∨
          ∃ data, outcome.1.tree.get? r = some (.file data)) ∧
      ∀ r target, destination <+: r → outcome.1.tree.get? r ≠ some (.link target) := by
  intro outcome houtcome
  have hconfined : t.Confined destination outcome.1.tree := by
    rcases List.mem_cons.mp houtcome with rfl | hplain
    · exact extract_confined hthere hlinks content
    · rw [List.mem_singleton.mp hplain]
      exact extractSource_confined hthere hlinks (.ofBytes content)
  refine ⟨fun r hr => hconfined.get?_outside hr, ?_, ?_, hconfined.linkFree hlinks⟩
  · rw [hconfined.get?_base]
    exact hthere
  · intro r hchanged
    rcases hconfined r with hsame | ⟨_, _, hplain⟩
    · exact absurd hsame hchanged
    · exact hplain

/-- A file, and behind it a member whose path leads up. The file has been made,
nothing has been made beside the destination, and a link that leads into the
destination has stayed as it was. -/
theorem extraction_stays_below_destination_beside_links :
    let inside : Route := [bytes "into"]
    let t : Tree := ⟨[(inside, .directory), ([bytes "way"], .link (bytes "into")),
      ([bytes "beside"], .directory), ([bytes "beside", bytes "out"], .link (bytes ".."))]⟩
    let content := (Item.file [bytes "a"] (bytes "hi")).write ++
      introduce (byte '0') (bytes "../x") 0
    let outcome := extract t inside content
    t.get? inside = some .directory ∧
    (∀ r target, inside <+: r → t.get? r ≠ some (.link target)) ∧
    outcome.2 = .error (.unsafeMember "../x") ∧
    outcome.1.tree.get? [bytes "into", bytes "a"] = some (.file (bytes "hi")) ∧
    outcome.1.tree.get? [bytes "x"] = none ∧
    outcome.1.tree.get? [bytes "way"] = some (.link (bytes "into")) := by
  intro inside t content outcome
  have hthere : t.get? inside = some .directory := by decide
  have hlinks : ∀ r target, inside <+: r → t.get? r ≠ some (.link target) := by
    rintro r target ⟨rest, rfl⟩ hlink
    cases rest with
    | nil => cases hlink
    | cons name more => cases hlink
  have houtside := (extraction_stays_below_destination content hthere hlinks outcome
    (List.mem_cons_self ..)).1
  refine ⟨hthere, hlinks, by decide +kernel, by decide +kernel, ?_, ?_⟩
  · exact (houtside [bytes "x"] (by decide)).trans (by decide)
  · exact (houtside [bytes "way"] (by decide)).trans (by decide)

end GlyphSearch.Tar
