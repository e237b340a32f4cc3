import GlyphSearch.Files.Tree

/-!
# Where names lead

A walk that succeeds visits directories and links only, apart from the place
where it ends. `Leads` lists the steps of such a walk, and two facts follow by
induction on them. A walk that ends in a directory can go one name further,
unless that name is a link; and a walk still leads to the same place in a tree
that has the same links and has lost no directory, as after a file has been
written. So what has been written is found where it was written.

The paths of the files in a directory are made from the directory's path, and
so the names of such a path are the names of the directory and one more.
-/

namespace GlyphSearch.Files

open Text

/-- A name that a file in a directory can have. -/
def IsFileName (name : Name) : Prop :=
  name ≠ [] ∧ slash ∉ name ∧ name ≠ dot ∧ name ≠ dotDot ∧ name.length ≤ nameLimit

instance : DecidablePred IsFileName := fun _ => inferInstanceAs (Decidable (_ ∧ _))

namespace Tree

/-- Names lead from one route to another, through so many links at most. -/
inductive Leads (t : Tree) : Nat → Route → List Name → Route → Prop where
  | done {links : Nat} {start : Route} : Leads t links start [] start
  | stay {links : Nat} {start r : Route} {rest : List Name} :
      t.get? start = some .directory → Leads t links start rest r →
      Leads t links start (dot :: rest) r
  | up {links : Nat} {start r : Route} {rest : List Name} :
      t.get? start = some .directory → Leads t links start.dropLast rest r →
      Leads t links start (dotDot :: rest) r
  | down {links : Nat} {start r : Route} {name : Name} {rest : List Name} :
      t.get? start = some .directory → name ≠ dot → name ≠ dotDot → name.length ≤ nameLimit →
      (∀ target, t.get? (start ++ [name]) ≠ some (.link target)) →
      Leads t links (start ++ [name]) rest r → Leads t links start (name :: rest) r
  | link {links : Nat} {start r : Route} {name : Name} {rest : List Name} {target : Path} :
      t.get? start = some .directory → name ≠ dot → name ≠ dotDot → name.length ≤ nameLimit →
      t.get? (start ++ [name]) = some (.link target) →
      Leads t links (if target.isAbsolute then [] else start) (target.steps ++ rest) r →
      Leads t (links + 1) start (name :: rest) r

theorem leads_of_walkWith {t : Tree} {links : Nat}
    {goOn : Route → List Name → Except FileFault Route}
    (hgoOn : ∀ {start name rest target r}, t.get? start = some .directory → name ≠ dot →
      name ≠ dotDot → name.length ≤ nameLimit → t.get? (start ++ [name]) = some (.link target) →
      goOn (if target.isAbsolute then [] else start) (target.steps ++ rest) = .ok r →
      Leads t links start (name :: rest) r) :
    ∀ {names : List Name} {start r : Route}, t.walkWith goOn start names = .ok r →
      Leads t links start names r := by
  intro names
  induction names with
  | nil =>
      intro start r h
      rw [walkWith] at h
      cases h
      exact .done
  | cons name rest ih =>
      intro start r h
      rw [walkWith] at h
      split at h
      · cases h
      · next hstart =>
          split at h
          · next hdot => exact hdot ▸ .stay hstart (ih h)
          · next hdot =>
              split at h
              · next hup => exact hup ▸ .up hstart (ih h)
              · next hup =>
                  split at h
                  · cases h
                  · next hshort =>
                      split at h
                      · next target hlink =>
                          exact hgoOn hstart hdot hup (Nat.le_of_not_lt hshort) hlink h
                      · next hlink =>
                          exact .down hstart hdot hup (Nat.le_of_not_lt hshort)
                            (fun target => hlink target) (ih h)
      · cases h

theorem leads_of_walk {t : Tree} :
    ∀ {links : Nat} {names : List Name} {start r : Route}, t.walk links start names = .ok r →
      Leads t links start names r := by
  intro links
  induction links with
  | zero =>
      intro names start r h
      refine leads_of_walkWith ?_ h
      intro _ _ _ _ _ _ _ _ _ _ hmore
      cases hmore
  | succ links ih =>
      intro names start r h
      refine leads_of_walkWith ?_ h
      intro _ _ _ _ _ hstart hdot hup hshort hlink hmore
      exact .link hstart hdot hup hshort hlink (ih hmore)

namespace Leads

variable {t : Tree} {links : Nat} {start r : Route} {names : List Name}

theorem walk_eq (h : Leads t links start names r) : t.walk links start names = .ok r := by
  induction h with
  | @done links start => cases links <;> rfl
  | @stay links start r rest hstart _ ih =>
      rw [← ih]
      cases links <;>
        · rw [walk, walkWith, hstart]
          exact if_pos rfl
  | @up links start r rest hstart _ ih =>
      rw [← ih]
      cases links <;>
        · rw [walk, walkWith, hstart]
          exact (if_neg (by decide)).trans (if_pos rfl)
  | @down links start r name rest hstart hdot hup hshort hlink _ ih =>
      rw [← ih]
      cases links <;>
        · rw [walk, walkWith, hstart]
          dsimp only
          rw [if_neg hdot, if_neg hup, if_neg (Nat.not_lt_of_le hshort)]
          split
          · next target h => exact absurd h (hlink target)
          · rfl
  | link hstart hdot hup hshort hlink _ ih =>
      rw [← ih, walk, walkWith, hstart]
      dsimp only
      rw [if_neg hdot, if_neg hup, if_neg (Nat.not_lt_of_le hshort), hlink]

/-- A walk that ends in a directory goes on to what is in it. -/
theorem snoc (h : Leads t links start names r) (hthere : t.get? r = some .directory)
    {name : Name} (hdot : name ≠ dot) (hup : name ≠ dotDot) (hshort : name.length ≤ nameLimit)
    (hlink : ∀ target, t.get? (r ++ [name]) ≠ some (.link target)) :
    Leads t links start (names ++ [name]) (r ++ [name]) := by
  induction h with
  | done => exact .down hthere hdot hup hshort hlink .done
  | stay hstart _ ih => exact .stay hstart (ih hthere hlink)
  | up hstart _ ih => exact .up hstart (ih hthere hlink)
  | down hstart hdot' hup' hshort' hlink' _ ih =>
      exact .down hstart hdot' hup' hshort' hlink' (ih hthere hlink)
  | link hstart hdot' hup' hshort' hlink' _ ih =>
      have hmore := ih hthere hlink
      rw [List.append_assoc] at hmore
      exact .link hstart hdot' hup' hshort' hlink' hmore

/-- A step on the spot at the end may be left out. -/
theorem of_dot (h : Leads t links start (names ++ [dot]) r) : Leads t links start names r := by
  generalize hall : names ++ [dot] = all at h
  induction h generalizing names with
  | done => exact absurd hall (by simp)
  | stay hstart hrest ih =>
      cases names with
      | nil =>
          cases hall
          exact hrest
      | cons name rest =>
          cases hall
          exact .stay hstart (ih rfl)
  | up hstart hrest ih =>
      cases names with
      | nil => exact absurd hall (by simp [dot, dotDot])
      | cons name rest =>
          cases hall
          exact .up hstart (ih rfl)
  | down hstart hdot hup hshort hlink _ ih =>
      cases names with
      | nil => exact absurd (List.cons.inj hall).1.symm hdot
      | cons name rest =>
          cases hall
          exact .down hstart hdot hup hshort hlink (ih rfl)
  | link hstart hdot hup hshort hlink _ ih =>
      cases names with
      | nil => exact absurd (List.cons.inj hall).1.symm hdot
      | cons name rest =>
          cases hall
          exact .link hstart hdot hup hshort hlink (ih (List.append_assoc ..))

/-- What a walk visits is still there. -/
theorem congr (h : Leads t links start names r) {t' : Tree}
    (hdirectory : ∀ q, t.get? q = some .directory → t'.get? q = some .directory)
    (hsame : ∀ q target, t'.get? q = some (.link target) ↔ t.get? q = some (.link target)) :
    Leads t' links start names r := by
  induction h with
  | done => exact .done
  | stay hstart _ ih => exact .stay (hdirectory _ hstart) ih
  | up hstart _ ih => exact .up (hdirectory _ hstart) ih
  | down hstart hdot hup hshort hlink _ ih =>
      exact .down (hdirectory _ hstart) hdot hup hshort
        (fun target h => hlink target ((hsame _ target).mp h)) ih
  | link hstart hdot hup hshort hlink _ ih =>
      exact .link (hdirectory _ hstart) hdot hup hshort ((hsame _ _).mpr hlink) ih

end Leads

variable {t : Tree} {start r : Route} {names : List Name}

theorem follow_eq_ok {n : Node} :
    t.follow start names = .ok (r, n) ↔
      Leads t linkLimit start names r ∧ t.get? r = some n := by
  constructor
  · intro h
    obtain ⟨s, hwalk, hnode⟩ := bind_eq_ok.mp h
    split at hnode
    · cases hnode
    · next node hget =>
        cases hnode
        exact ⟨leads_of_walk hwalk, hget⟩
  · rintro ⟨hleads, hget⟩
    rw [follow, hleads.walk_eq]
    simp only [bind, Except.bind, hget]

/-- Nothing at a route, or a file. -/
def IsFree (t : Tree) (r : Route) : Prop :=
  t.get? r = none ∨ ∃ content, t.get? r = some (.file content)

theorem IsFree.ne_directory (h : t.IsFree r) : t.get? r ≠ some .directory := by
  rcases h with h | ⟨content, h⟩ <;> rw [h] <;> simp

theorem IsFree.ne_link (h : t.IsFree r) (target : Path) : t.get? r ≠ some (.link target) := by
  rcases h with h | ⟨content, h⟩ <;> rw [h] <;> simp

theorem IsFree.ne_nil (h : t.IsFree r) : r ≠ [] := by
  rintro rfl
  exact h.ne_directory t.get?_nil

/-- Putting a file where one may be leaves all ways as they are. -/
theorem Leads.set_file {links : Nat} {s : Route} (h : t.Leads links start names s)
    (hfree : t.IsFree r) (content : Bytes) :
    (t.set r (.file content)).Leads links start names s := by
  have hother : ∀ q, q ≠ r → (t.set r (.file content)).get? q = t.get? q :=
    fun q => get?_set_of_ne t _
  refine h.congr (fun q hq => ?_) fun q target => ?_
  · have hne : q ≠ r := by
      rintro rfl
      exact hfree.ne_directory hq
    rw [hother q hne, hq]
  · by_cases hq : q = r
    · subst hq
      rw [get?_set_self t _ hfree.ne_nil]
      simp [hfree.ne_link]
    · rw [hother q hq]

theorem follow_set_file (hfree : t.IsFree r) {s : Route}
    (hthere : t.follow start names = .ok (s, .directory)) (content : Bytes) :
    (t.set r (.file content)).follow start names = .ok (s, .directory) := by
  obtain ⟨hleads, hget⟩ := follow_eq_ok.mp hthere
  have hne : s ≠ r := by
    rintro rfl
    exact hfree.ne_directory hget
  exact follow_eq_ok.mpr ⟨hleads.set_file hfree content, (get?_set_of_ne t _ hne).trans hget⟩

/-- A file is written into a directory. -/
theorem writeFile_of_follow {name : Name} (hname : IsFileName name)
    (hthere : t.follow start names = .ok (r, .directory)) (hfree : t.IsFree (r ++ [name]))
    (content : Bytes) :
    t.writeFile start (names ++ [name]) content =
      (t.set (r ++ [name]) (.file content), .ok ()) := by
  obtain ⟨_, _, hdot, hup, hshort⟩ := hname
  obtain ⟨hleads, hget⟩ := follow_eq_ok.mp hthere
  rw [writeFile, (hleads.snoc hget hdot hup hshort hfree.ne_link).walk_eq]
  rcases hfree with hnone | ⟨old, hold⟩
  · dsimp only
    rw [hnone]
  · dsimp only
    rw [hold]

/-- What has been written is found under the same names, unless they lead to a
device, which takes it and leaves the tree as it is. -/
theorem follow_of_writeFile {t' : Tree} {content : Bytes}
    (h : t.writeFile start names content = (t', .ok ())) :
    ∃ r, t'.follow start names = .ok (r, .file content) ∨
      ∃ old, t.follow start names = .ok (r, .device old) ∧ t' = t := by
  rw [writeFile] at h
  split at h
  · cases h
  · next r hwalk =>
      have hleads := leads_of_walk hwalk
      have hwritten : t.IsFree r →
          (t.set r (.file content)).follow start names = .ok (r, .file content) := fun hfree =>
        follow_eq_ok.mpr ⟨hleads.set_file hfree content, get?_set_self t _ hfree.ne_nil⟩
      refine ⟨r, ?_⟩
      split at h
      · next hnone =>
          cases h
          exact .inl (hwritten (.inl hnone))
      · next old hold =>
          cases h
          exact .inl (hwritten (.inr ⟨old, hold⟩))
      · cases h
      · cases h
      · next old hold =>
          cases h
          exact .inr ⟨old, follow_eq_ok.mpr ⟨hleads, hold⟩, rfl⟩

end Tree

/-! ## The paths of the files in a directory -/

namespace Path

theorem segments_append (p q : Path) : segments (p ++ slash :: q) = p.segments ++ q.segments := by
  rw [segments, List.splitOnP_append_cons _ _ (by simp), List.filter_append]
  rfl

theorem segments_of_isFileName {name : Name} (h : IsFileName name) : segments name = [name] := by
  obtain ⟨hne, hslash, _⟩ := h
  have hall : ∀ b ∈ name, decide (b = slash) = false := by
    intro b hb
    exact decide_eq_false fun heq => hslash (heq ▸ hb)
  rw [segments, List.splitOnP_eq_singleton hall]
  simp [hne]

theorem endsInSlash_append {q : Path} (hq : q ≠ []) (p : Path) :
    endsInSlash (p ++ q) = q.endsInSlash := by
  rw [endsInSlash, endsInSlash, List.getLast?_append, List.getLast?_eq_some_getLast hq]
  rfl

theorem isAbsolute_of_isFileName {name : Name} (h : IsFileName name) :
    isAbsolute name = false := by
  obtain ⟨_, hslash, _⟩ := h
  refine decide_eq_false fun hhead => hslash ?_
  exact List.mem_of_head? hhead

theorem steps_of_isFileName {name : Name} (h : IsFileName name) : steps name = [name] := by
  have hlast : endsInSlash name = false :=
    decide_eq_false fun hlast => h.2.1 (List.mem_of_getLast? hlast)
  rw [steps, segments_of_isFileName h, hlast]
  rfl

section Join

variable {q : Path} (hrelative : q.isAbsolute = false)

include hrelative

theorem join_cases (p : Path) :
    (p = [] ∧ p.join q = q) ∨ (∃ p', p = p' ++ [slash] ∧ p.join q = p' ++ slash :: q) ∨
      (p ≠ [] ∧ p.join q = p ++ slash :: q) := by
  rw [join, hrelative]
  by_cases hp : p = []
  · exact .inl ⟨hp, if_pos (.inr hp)⟩
  · rw [if_neg (by simp [hp])]
    right
    split
    · next hend =>
        obtain ⟨p', rfl⟩ := List.getLast?_eq_some_iff.mp (of_decide_eq_true hend)
        exact .inl ⟨p', rfl, by rw [List.append_assoc, List.singleton_append]⟩
    · exact .inr ⟨hp, rfl⟩

/-- With or without a slash at its end, the path of a directory leads along
the same names on to what is in it. -/
theorem segments_join (p : Path) : (p.join q).segments = p.segments ++ q.segments := by
  have hempty : segments [] = [] := rfl
  obtain ⟨rfl, hjoin⟩ | ⟨p', rfl, hjoin⟩ | ⟨hp, hjoin⟩ := join_cases hrelative p
  · rw [hjoin, hempty, List.nil_append]
  · rw [hjoin, segments_append, segments_append, hempty, List.append_nil]
  · rw [hjoin, segments_append]

theorem steps_join (hq : q ≠ []) (p : Path) : (p.join q).steps = p.segments ++ q.steps := by
  have hend : (p.join q).endsInSlash = q.endsInSlash := by
    obtain ⟨-, hjoin⟩ | ⟨p', -, hjoin⟩ | ⟨-, hjoin⟩ := join_cases hrelative p
    · rw [hjoin]
    · rw [hjoin, List.append_cons, endsInSlash_append hq]
    · rw [hjoin, List.append_cons, endsInSlash_append hq]
  rw [steps, steps, segments_join hrelative, hend, List.append_assoc]

theorem isAbsolute_join (p : Path) : (p.join q).isAbsolute = p.isAbsolute := by
  obtain ⟨rfl, hjoin⟩ | ⟨p', rfl, hjoin⟩ | ⟨hp, hjoin⟩ := join_cases hrelative p
  · rw [hjoin, hrelative]
    rfl
  · rw [hjoin]
    cases p' <;> rfl
  · obtain ⟨b, rest, rfl⟩ := List.exists_cons_of_ne_nil hp
    rw [hjoin]
    rfl

end Join

end Path

theorem Tree.Leads.segments {t : Tree} {links : Nat} {start r : Route} {p : Path}
    (h : t.Leads links start p.steps r) : t.Leads links start p.segments r := by
  rw [Path.steps] at h
  split at h
  · exact h.of_dot
  · rwa [List.append_nil] at h

/-- The file in a directory is read by its path. -/
theorem Tree.read_join {t : Tree} {workingDirectory r : Route} {p : Path} {name : Name}
    (hname : IsFileName name) (hpath : checkPath (p.join name) = .ok ())
    (hthere : t.follow (if p.isAbsolute then [] else workingDirectory) p.steps =
      .ok (r, .directory)) {content : Bytes} (hfile : t.get? (r ++ [name]) = some (.file content)) :
    t.read workingDirectory (p.join name) = .ok content := by
  obtain ⟨hleads, hget⟩ := follow_eq_ok.mp hthere
  have hfollow : t.follow (if p.isAbsolute then [] else workingDirectory) (p.segments ++ [name]) =
      .ok (r ++ [name], .file content) :=
    follow_eq_ok.mpr ⟨hleads.segments.snoc hget hname.2.2.1 hname.2.2.2.1 hname.2.2.2.2
      (by simp [hfile]), hfile⟩
  have hfind : t.find workingDirectory (p.join name) = .ok (r ++ [name], .file content) := by
    rw [find, hpath, Path.isAbsolute_join (Path.isAbsolute_of_isFileName hname),
      Path.steps_join (Path.isAbsolute_of_isFileName hname) hname.1,
      Path.steps_of_isFileName hname]
    exact hfollow
  rw [read, hfind]
  rfl

end GlyphSearch.Files
