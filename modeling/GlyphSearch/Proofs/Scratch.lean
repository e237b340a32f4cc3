import GlyphSearch.Dataset.Source
import GlyphSearch.Proofs.Confinement
import GlyphSearch.Proofs.Documents
import GlyphSearch.Proofs.Walking
import Mathlib.Data.List.Induction

/-!
# Temporary directories

A temporary directory is made at a route where nothing is. In a tree where
everything is below a directory there is nothing below that route either, and
so no path of old leads through it. Whatever is put below it later can
therefore be told apart from everything else: as long as no link is among it,
the directory's path still leads to the directory, and removing it leaves the
tree as it was before it was made.

`Tree.Holds` describes this: the second tree is the first one with a directory
of its own, whatever is in it. An archive is unpacked into such a directory, and
the directory is given away or removed again.
-/

namespace GlyphSearch.Files

open Text

namespace Tree

variable {t t' : Tree} {r q : Route}

/-- Everything is below a directory. -/
def IsRooted (t : Tree) : Prop :=
  ∀ r name n, t.get? (r ++ [name]) = some n → t.get? r = some .directory

theorem IsRooted.get?_of_prefix (h : t.IsRooted) (hr : t.get? r = none) (hq : r <+: q) :
    t.get? q = none := by
  obtain ⟨names, rfl⟩ := hq
  induction names using List.reverseRecOn with
  | nil => rwa [List.append_nil]
  | append_singleton names name ih =>
      -- Something in a place that is not there would be in no directory.
      rw [← List.append_assoc]
      cases hget : t.get? (r ++ names ++ [name]) with
      | none => rfl
      | some n => cases ih.symm.trans (h _ name n hget)

/-- A directory that is put where nothing is, below another one. -/
theorem IsRooted.set_directory (h : t.IsRooted) {name : Name}
    (hr : t.get? r = some .directory) (hnew : t.get? (r ++ [name]) = none) :
    (t.set (r ++ [name]) .directory).IsRooted := by
  intro s other n hs
  by_cases hsame : s ++ [other] = r ++ [name]
  · obtain ⟨rfl, -⟩ := List.append_inj' hsame rfl
    rw [get?_set_of_ne _ _ (by simp)]
    exact hr
  · rw [get?_set_of_ne _ _ hsame] at hs
    have hthere := h s other n hs
    have hne : s ≠ r ++ [name] := by
      rintro rfl
      cases hnew.symm.trans hthere
    rw [get?_set_of_ne _ _ hne]
    exact hthere

theorem get?_erase_of_below (t : Tree) (hr : r ≠ []) (hq : r <+: q) :
    (t.erase r).get? q = none := by
  have hne : q ≠ [] := by
    rintro rfl
    exact hr (List.prefix_nil.mp hq)
  rw [get?, if_neg hne, List.lookup_eq_none_iff]
  rintro ⟨route, n⟩ hnode
  have hkept : (!r.isPrefixOf route) = true := (List.mem_filter.mp hnode).2
  rw [bne_iff_ne]
  rintro rfl
  rw [List.isPrefixOf_iff_prefix.mpr hq] at hkept
  cases hkept

theorem get?_erase_of_not_below (t : Tree) (hq : ¬ r <+: q) : (t.erase r).get? q = t.get? q := by
  have hkept : ∀ nodes : List (Route × Node),
      (nodes.filter fun node => !r.isPrefixOf node.1).lookup q = nodes.lookup q := by
    intro nodes
    induction nodes with
    | nil => rfl
    | cons node rest ih =>
        obtain ⟨route, n⟩ := node
        by_cases hroute : r <+: route
        · have hother : (q == route) = false := by
            rw [beq_eq_false_iff_ne]
            rintro rfl
            exact hq hroute
          rw [List.filter_cons_of_neg (by simp [List.isPrefixOf_iff_prefix.mpr hroute]),
            List.lookup_cons, hother]
          exact ih
        · have hroute' : r.isPrefixOf route = false :=
            Bool.eq_false_iff.mpr fun h => hroute (List.isPrefixOf_iff_prefix.mp h)
          rw [List.filter_cons_of_pos (by simp [hroute']), List.lookup_cons, List.lookup_cons, ih]
  unfold get? erase
  rw [← hkept t.nodes]

/-- The second tree is the first one with a directory of its own at a route
where nothing was, and with whatever is in that directory. -/
structure Holds (t : Tree) (r : Route) (t' : Tree) : Prop where
  isNew : ∀ q, r <+: q → t.get? q = none
  isDirectory : t'.get? r = some .directory
  outside : ∀ q, ¬ r <+: q → t'.get? q = t.get? q
  linkFree : t'.LinkFree r

namespace Holds

variable (h : Holds t r t')

include h

theorem ne_nil : r ≠ [] := by
  rintro rfl
  have hroot := h.isNew [] (List.prefix_refl [])
  rw [get?_nil] at hroot
  cases hroot

/-- Removing the directory leaves what was there before. -/
theorem get?_erase (q : Route) : (t'.erase r).get? q = t.get? q := by
  by_cases hq : r <+: q
  · rw [get?_erase_of_below t' h.ne_nil hq, h.isNew q hq]
  · rw [get?_erase_of_not_below t' hq, h.outside q hq]

theorem outside_of_some {n : Node} (hq : t.get? q = some n) : t'.get? q = some n := by
  rw [h.outside q fun hbelow => ?_]
  · exact hq
  · cases (h.isNew q hbelow).symm.trans hq

theorem get?_eq_link_iff (q : Route) (target : Path) :
    t'.get? q = some (.link target) ↔ t.get? q = some (.link target) := by
  by_cases hq : r <+: q
  · rw [h.isNew q hq]
    exact iff_of_false (h.linkFree q target hq) (by simp)
  · rw [h.outside q hq]

/-- Whatever led somewhere before leads there still. -/
theorem leads {links : Nat} {start s : Route} {names : List Name}
    (hleads : t.Leads links start names s) : t'.Leads links start names s :=
  hleads.congr (fun _ => h.outside_of_some) h.get?_eq_link_iff

theorem confined {t'' : Tree} (hmore : Confined r t' t'') : Holds t r t'' where
  isNew := h.isNew
  isDirectory := hmore.get?_base.trans h.isDirectory
  outside q hq := (hmore.get?_outside hq).trans (h.outside q hq)
  linkFree := hmore.linkFree h.linkFree

end Holds

theorem holds_set {name : Name} (hrooted : t.IsRooted) (hnew : t.get? (r ++ [name]) = none) :
    Holds t (r ++ [name]) (t.set (r ++ [name]) .directory) := by
  have hnothing := fun q => hrooted.get?_of_prefix (q := q) hnew
  have hother : ∀ q, q ≠ r ++ [name] → (t.set (r ++ [name]) .directory).get? q = t.get? q :=
    fun q => get?_set_of_ne t _
  refine ⟨hnothing, get?_set_self t _ (by simp), fun q hq => hother q ?_, ?_⟩
  · rintro rfl
    exact hq (List.prefix_refl _)
  · intro q target hq
    by_cases hsame : q = r ++ [name]
    · rw [hsame, get?_set_self t _ (by simp)]
      simp
    · rw [hother q hsame, hnothing q hq]
      simp

end Tree

/-! ## The path of a temporary directory -/

theorem isFileName_temporaryName {n : Nat} (h : (Disk.temporaryName n).length ≤ nameLimit) :
    IsFileName (Disk.temporaryName n) := by
  have hslash : slash ∉ Disk.temporaryName n := by
    rw [Disk.temporaryName, List.mem_append, Json.bytes_toString]
    rintro (hstem | hdigits)
    · revert hstem
      decide
    · exact Json.forall_mem_digitBytes (p := (· ≠ slash)) (by decide) n _ hdigits rfl
  -- The stem tells the name apart from the two names of directories above.
  have hhead : (Disk.temporaryName n).head? = some (byte 'h') := rfl
  refine ⟨?_, hslash, ?_, ?_, h⟩
  · intro heq
    rw [heq] at hhead
    cases hhead
  · intro heq
    rw [heq] at hhead
    revert hhead
    decide
  · intro heq
    rw [heq] at hhead
    revert hhead
    decide

theorem zero_not_mem_temporaryName (n : Nat) : 0 ∉ Disk.temporaryName n := by
  rw [Disk.temporaryName, List.mem_append, Json.bytes_toString]
  rintro (hstem | hdigits)
  · revert hstem
    decide
  · exact Json.forall_mem_digitBytes (p := (· ≠ 0)) (by decide) n _ hdigits rfl

namespace Path

theorem mem_join {base p : Path} {b : UInt8} (h : b ∈ base.join p) :
    b ∈ base ∨ b = slash ∨ b ∈ p := by
  rw [join] at h
  split at h
  · exact .inr (.inr h)
  · split at h
    · exact (List.mem_append.mp h).imp_right .inr
    · rcases List.mem_append.mp h with hbase | hp
      · exact .inl hbase
      · exact .inr (List.mem_cons.mp hp)

theorem join_ne_nil {base : Path} (h : base ≠ []) (p : Path) : base.join p ≠ [] := by
  rw [join]
  split
  · next hp =>
      rcases hp with hp | hp
      · rintro rfl
        simp [isAbsolute] at hp
      · exact absurd hp h
  · split <;> simp [h]

end Path

namespace Tree

theorem checkPath_eq_ok {p : Path} :
    checkPath p = .ok () ↔ 0 ∉ p ∧ p ≠ [] ∧ p.length < pathLimit := by
  rw [checkPath]
  split
  · next hzero =>
      rw [List.contains_iff_mem] at hzero
      simp [hzero]
  · next hzero =>
      rw [List.contains_iff_mem] at hzero
      split
      · next hempty => simp [hempty]
      · next hempty =>
          split
          · next hlong =>
              simp only [reduceCtorEq, false_iff]
              omega
          · next hshort => simp [hzero, hempty, Nat.lt_of_not_le hshort]

end Tree

namespace Disk

variable {d d' : Disk} {path : Path} {r : Route}

/-- The path of a directory that has been made below the scratch directory, at
its route. -/
structure IsScratchPath (d : Disk) (path : Path) (r : Route) : Prop where
  checked : Tree.checkPath path = .ok ()
  split : ∃ base name, r = base ++ [name] ∧ IsFileName name ∧ path = d.scratch.join name ∧
    d.find d.scratch = .ok (base, .directory)

/-- The directory is found by its path, whatever has been put into it. -/
theorem IsScratchPath.find_eq (h : d.IsScratchPath path r) {t : Tree} (ht : d.tree.Holds r t) :
    t.find d.workingDirectory path = .ok (r, .directory) := by
  obtain ⟨hchecked, base, name, rfl, hname, rfl, hbase⟩ := h
  obtain ⟨-, -, hfollow⟩ := bind_eq_ok.mp hbase
  obtain ⟨hleads, hget⟩ := Tree.follow_eq_ok.mp hfollow
  have hlink : ∀ target, t.get? (base ++ [name]) ≠ some (.link target) := by simp [ht.isDirectory]
  have hway := (ht.leads hleads.segments).snoc (ht.outside_of_some hget) hname.2.2.1
    hname.2.2.2.1 hname.2.2.2.2 hlink
  rw [Tree.find, hchecked, Path.isAbsolute_join (Path.isAbsolute_of_isFileName hname),
    Path.steps_join (Path.isAbsolute_of_isFileName hname) hname.1, Path.steps_of_isFileName hname]
  exact Tree.follow_eq_ok.mpr ⟨hway, ht.isDirectory⟩

theorem checkPath_temporary {n : Nat} (hscratch : Tree.checkPath d.scratch = .ok ())
    (hshort : (d.scratch.join (temporaryName n)).length < pathLimit) :
    Tree.checkPath (d.scratch.join (temporaryName n)) = .ok () := by
  obtain ⟨hzero, hempty, -⟩ := Tree.checkPath_eq_ok.mp hscratch
  refine Tree.checkPath_eq_ok.mpr ⟨fun hmem => ?_, Path.join_ne_nil hempty _, hshort⟩
  rcases Path.mem_join hmem with hmem | hmem | hmem
  · exact hzero hmem
  · cases hmem
  · exact zero_not_mem_temporaryName n hmem

theorem makeTemporary_spec (hrooted : d.tree.IsRooted) (h : d.makeTemporary = (d', .ok path)) :
    ∃ r, d.IsScratchPath path r ∧ d.tree.Holds r d'.tree ∧
      (∀ q, r <+: q → q ≠ r → d'.tree.get? q = none) ∧ d'.tree.IsRooted ∧
      d'.workingDirectory = d.workingDirectory := by
  rw [makeTemporary] at h
  split at h
  · cases h
  · next base hbase =>
      dsimp only at h
      split at h
      · cases h
      · next n hn =>
          split at h
          · cases h
          · next hlimits =>
              cases h
              obtain ⟨hname, hpath⟩ : (temporaryName n).length ≤ nameLimit ∧
                  (d.scratch.join (temporaryName n)).length < pathLimit := by
                constructor <;> omega
              have hfree : d.tree.get? (base ++ [temporaryName n]) = none := by
                have hnone := List.find?_some hn
                exact Option.isNone_iff_eq_none.mp hnone
              obtain ⟨_, hscratch, hfollow⟩ := bind_eq_ok.mp hbase
              have hthere := (Tree.follow_eq_ok.mp hfollow).2
              refine ⟨base ++ [temporaryName n],
                ⟨checkPath_temporary hscratch hpath, base, _, rfl, isFileName_temporaryName hname, rfl,
                  hbase⟩,
                Tree.holds_set hrooted hfree, fun q hq hne => ?_,
                hrooted.set_directory hthere hfree, rfl⟩
              rw [Tree.get?_set_of_ne _ _ hne]
              exact hrooted.get?_of_prefix hfree hq
  · cases h

theorem makeTemporary_eq_error {fault : FileFault} (h : d.makeTemporary = (d', .error fault)) :
    d' = d := by
  rw [makeTemporary] at h
  split at h
  · cases h
    rfl
  · dsimp only at h
    split at h
    · cases h
      rfl
    · split at h
      · cases h
        rfl
      · cases h
  · cases h
    rfl

/-- Removing the directory leaves what was there before it was made. -/
theorem IsScratchPath.discard_eq (h : d.IsScratchPath path r) (ht : d.tree.Holds r d'.tree)
    (hwhere : d'.workingDirectory = d.workingDirectory) :
    d'.discard path = { d' with tree := d'.tree.erase r } := by
  have hfind : d'.find path = .ok (r, .directory) := by
    rw [find, hwhere]
    exact h.find_eq ht
  rw [discard, removeDirectory, hfind]

end Disk

end GlyphSearch.Files

namespace GlyphSearch.Dataset

open Files

variable {d : Disk} {path : Path} {r : Route}

/-! ## Unpacking into a temporary directory -/

/-- What unpacking comes to: a directory that is given away, or an error and
nothing that was not there before. -/
inductive Unpacked (d : Disk) : Fetched → Prop
  | given {path : Path} {r : Route} {f : Fetched} (hresult : f.result = .ok (.temporary path))
      (hpath : d.IsScratchPath path r) (hholds : d.tree.Holds r f.disk.tree)
      (hwhere : f.disk.workingDirectory = d.workingDirectory) : Unpacked d f
  | refused {e : Error} {f : Fetched} (hresult : f.result = .error e)
      (hsame : ∀ q, f.disk.tree.get? q = d.tree.get? q) : Unpacked d f

theorem unpackInto_spec {made : Disk} (hpath : d.IsScratchPath path r)
    (hholds : d.tree.Holds r made.tree) (hwhere : made.workingDirectory = d.workingDirectory)
    (content : Bytes) : Unpacked d (unpackInto made path content) := by
  have hfind : made.find path = .ok (r, .directory) := by
    rw [Disk.find, hwhere]
    exact hpath.find_eq hholds
  have hmore := hholds.confined
    (Tar.extract_confined hholds.isDirectory hholds.linkFree content)
  rw [unpackInto, hfind]
  dsimp only
  split
  · next p hp =>
      rw [hp] at hmore
      exact .given rfl hpath hmore hwhere
  · next p e hp =>
      rw [hp] at hmore
      have hdiscard : { made with tree := p.tree }.discard path =
          { made with tree := p.tree.erase r } := hpath.discard_eq hmore hwhere
      refine .refused rfl fun q => ?_
      dsimp only
      rw [hdiscard]
      exact hmore.get?_erase q

theorem unpack_spec (hrooted : d.tree.IsRooted) (read : Disk → Except Error Bytes) :
    Unpacked d (unpack read d) := by
  rw [unpack]
  split
  · next made fault hmade =>
      rw [Disk.makeTemporary_eq_error hmade]
      exact .refused rfl fun _ => rfl
  · next made path hmade =>
      obtain ⟨r, hpath, hholds, -, -, hwhere⟩ := Disk.makeTemporary_spec hrooted hmade
      split
      · refine .refused rfl fun q => ?_
        dsimp only [Fetched.failed]
        rw [hpath.discard_eq hholds hwhere]
        exact hholds.get?_erase q
      · exact unpackInto_spec hpath hholds hwhere _

/-- A source that unpacks an archive. -/
def Source.IsArchive (source : Source) : Prop :=
  (∃ path, source = .archive path) ∨
    ∃ bucket bucketName name, source = .object bucket bucketName name

theorem Source.IsArchive.fetch_spec {source : Source} (h : source.IsArchive)
    (hrooted : d.tree.IsRooted) : Unpacked d (source.fetch d) := by
  obtain ⟨path, rfl⟩ | ⟨bucket, bucketName, name, rfl⟩ := h
  · exact unpack_spec hrooted _
  · show Unpacked d (unpackObject bucket name d)
    rw [unpackObject]
    split
    · exact .refused rfl fun _ => rfl
    · exact unpack_spec hrooted _

end GlyphSearch.Dataset
