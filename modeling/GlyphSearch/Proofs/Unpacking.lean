import GlyphSearch.Proofs.Archiver
import GlyphSearch.Proofs.Scratch

/-!
# A packing is extracted to what was packed

While a packing is extracted, the tree below the destination shows a part of
what was packed: at each route either what belongs there or nothing. A member
is extracted wherever it comes, as the directories above it are among what was
packed, and are either there or made on the way; and nothing that is there is
changed to anything else.

So nothing depends on the order. At the end every item is there with the
directories above it, and that is all there is to see, since below each
directory there is an item.
-/

namespace GlyphSearch.Files

/-- Whether a node is a directory or a file. -/
def Node.isPlain : Node → Bool
  | directory | file _ => true
  | link _ | device _ => false

namespace Tree

/-- A tree of directories and files that archives can carry. -/
structure IsPlan (plan : Tree) : Prop where
  isRooted : plan.IsRooted
  plain : ∀ r n, plan.get? r = some n → n = .directory ∨ ∃ content, n = .file content
  names : ∀ r n, plan.get? r = some n → ∀ name ∈ r, Tar.IsMemberName name

theorem IsPlan.linkFree {plan : Tree} (h : plan.IsPlan) (q : Route) (target : Path) :
    plan.get? q ≠ some (.link target) := by
  intro hlink
  rcases h.plain q _ hlink with heq | ⟨content, heq⟩ <;> cases heq

theorem mem_nodes {t : Tree} {r : Route} {n : Node} (hr : r ≠ []) (h : t.get? r = some n) :
    (r, n) ∈ t.nodes := by
  rw [get?, if_neg hr, List.lookup_eq_some_iff] at h
  obtain ⟨before, after, hnodes, -⟩ := h
  rw [hnodes]
  exact List.mem_append_right _ List.mem_cons_self

/-- Whether a tree is a plan can be seen from its nodes. -/
theorem isPlan_of_nodes {t : Tree} (h : ∀ node ∈ t.nodes, node.2.isPlain = true ∧
    (∀ name ∈ node.1, Tar.IsMemberName name) ∧ t.get? node.1.dropLast = some .directory) :
    t.IsPlan := by
  refine ⟨fun r name n hn => ?_, fun r n hn => ?_, fun r n hn => ?_⟩
  · have habove := (h _ (mem_nodes (by simp) hn)).2.2
    rwa [List.dropLast_concat] at habove
  · by_cases hr : r = []
    · rw [hr, get?_nil] at hn
      exact .inl (Option.some.inj hn).symm
    · have hplain := (h _ (mem_nodes hr hn)).1
      cases n with
      | directory => exact .inl rfl
      | file content => exact .inr ⟨content, rfl⟩
      | link target => cases hplain
      | device content => cases hplain
  · by_cases hr : r = []
    · simp [hr]
    · exact (h _ (mem_nodes hr hn)).2.1

theorem IsRooted.get?_above {t : Tree} (h : t.IsRooted) {r s : Route} {n : Node}
    (hn : t.get? (r ++ s) = some n) (hs : s ≠ []) : t.get? r = some .directory := by
  induction s using List.reverseRecOn generalizing n with
  | nil => exact absurd rfl hs
  | append_singleton s name ih =>
      rw [← List.append_assoc] at hn
      have habove := h _ name n hn
      by_cases hempty : s = []
      · rwa [hempty, List.append_nil] at habove
      · exact ih habove hempty

/-- Everything that is there is still there. -/
def Keeps (t t' : Tree) : Prop := ∀ r, t.get? r ≠ none → t'.get? r ≠ none

theorem Keeps.trans {t t' t'' : Tree} (h : t.Keeps t') (h' : t'.Keeps t'') : t.Keeps t'' :=
  fun r hr => h' r (h r hr)

theorem keeps_set (t : Tree) (r : Route) (n : Node) : t.Keeps (t.set r n) := by
  intro s hs
  by_cases hsame : s = r
  · subst hsame
    by_cases hroot : s = []
    · rw [hroot, get?_nil]
      simp
    · rw [get?_set_self t n hroot]
      simp
  · rwa [get?_set_of_ne t n hsame]

/-- Below a base the tree shows a part of a plan, and elsewhere what was there
before. -/
structure Shows (plan origin : Tree) (base : Route) (t : Tree) : Prop where
  isThere : t.get? base ≠ none
  agrees : ∀ r, t.get? (base ++ r) = none ∨ t.get? (base ++ r) = plan.get? r
  above : ∀ r name, t.get? (base ++ (r ++ [name])) ≠ none → t.get? (base ++ r) ≠ none
  outside : ∀ r, ¬ base <+: r → t.get? r = origin.get? r

namespace Shows

variable {plan origin t : Tree} {base r : Route}

theorem eq_of_ne_none (h : Shows plan origin base t) (hr : t.get? (base ++ r) ≠ none) :
    t.get? (base ++ r) = plan.get? r := (h.agrees r).resolve_left hr

/-- What belongs in a directory that is there may be put there. -/
theorem set (h : Shows plan origin base t) {name : Name} {n : Node}
    (hr : t.get? (base ++ r) ≠ none) (hn : plan.get? (r ++ [name]) = some n) :
    Shows plan origin base (t.set (base ++ (r ++ [name])) n) := by
  have hkeeps := t.keeps_set (base ++ (r ++ [name])) n
  refine ⟨hkeeps _ h.isThere, fun s => ?_, fun s other hs => ?_, fun s hs => ?_⟩
  · by_cases hsame : s = r ++ [name]
    · subst hsame
      rw [get?_set_self _ _ (by simp), hn]
      exact .inr rfl
    · rw [get?_set_of_ne _ _ (by simp [hsame])]
      exact h.agrees s
  · refine hkeeps _ ?_
    by_cases hsame : s ++ [other] = r ++ [name]
    · obtain ⟨rfl, -⟩ := List.append_inj' hsame rfl
      exact hr
    · rw [get?_set_of_ne _ _ (by simp [hsame])] at hs
      exact h.above s other hs
  · have hne : s ≠ base ++ (r ++ [name]) := by
      rintro rfl
      exact hs (List.prefix_append ..)
    rw [get?_set_of_ne _ _ hne]
    exact h.outside s hs

theorem makeDirectories (hplan : plan.IsPlan) {names : List Name}
    (h : Shows plan origin base t) (hr : t.get? (base ++ r) ≠ none)
    (hnames : plan.get? (r ++ names) = some .directory) :
    ∃ t', t.makeDirectories (base ++ r) names = (t', .ok ()) ∧ Shows plan origin base t' ∧
      t.Keeps t' ∧ t'.get? (base ++ (r ++ names)) ≠ none := by
  induction names generalizing t r with
  | nil =>
      refine ⟨t, rfl, h, fun _ hs => hs, ?_⟩
      rwa [List.append_nil]
  | cons name rest ih =>
      have hsplit : r ++ name :: rest = r ++ [name] ++ rest := by
        rw [List.append_assoc, List.singleton_append]
      have hhere : base ++ r ++ [name] = base ++ (r ++ [name]) := List.append_assoc ..
      obtain ⟨-, -, hdot, hup, hshort⟩ := (hplan.names _ _ hnames name (by simp)).1
      rw [hsplit] at hnames ⊢
      have hdirectory : plan.get? (r ++ [name]) = some .directory := by
        by_cases hrest : rest = []
        · rwa [hrest, List.append_nil] at hnames
        · exact hplan.isRooted.get?_above hnames hrest
      rw [Tree.makeDirectories, if_neg hdot, if_neg hup]
      dsimp only
      rw [hhere]
      -- What is missing is made, and what is there is the directory of the plan.
      rcases h.agrees (r ++ [name]) with hnone | hthere
      · rw [hnone]
        dsimp only
        rw [if_neg (Nat.not_lt_of_le hshort)]
        have hmade : (t.set (base ++ (r ++ [name])) .directory).get? (base ++ (r ++ [name])) ≠
            none := by
          rw [get?_set_self _ _ (by simp)]
          simp
        obtain ⟨t', hrun, hshows, hkeeps, hall⟩ := ih (h.set hr hdirectory) hmade hnames
        exact ⟨t', hrun, hshows, (keeps_set _ _ _).trans hkeeps, hall⟩
      · rw [hthere, hdirectory]
        exact ih h (by simp [hthere, hdirectory]) hnames

/-- The names of a directory that is there lead to it. -/
theorem leads (hplan : plan.IsPlan) (h : Shows plan origin base t) {links : Nat}
    (hr : t.get? (base ++ r) = some .directory) : t.Leads links base r (base ++ r) := by
  induction r using List.reverseRecOn with
  | nil =>
      rw [List.append_nil]
      exact .done
  | append_singleton r name ih =>
      have hthere : plan.get? (r ++ [name]) = some .directory := by
        rw [← h.eq_of_ne_none (by simp [hr]), hr]
      have habove : t.get? (base ++ r) = some .directory := by
        rw [h.eq_of_ne_none (h.above r name (by simp [hr]))]
        exact hplan.isRooted r name _ hthere
      obtain ⟨-, -, hdot, hup, hshort⟩ := (hplan.names _ _ hthere name (by simp)).1
      rw [← List.append_assoc] at hr ⊢
      refine (ih habove).snoc habove hdot hup hshort fun target => ?_
      rw [hr]
      simp

theorem writeFile (hplan : plan.IsPlan) (h : Shows plan origin base t) {name : Name}
    {content : Bytes} (hr : t.get? (base ++ r) ≠ none)
    (hfile : plan.get? (r ++ [name]) = some (.file content)) :
    t.writeFile base (r ++ [name]) content =
      (t.set (base ++ (r ++ [name])) (.file content), .ok ()) := by
  have hthere : t.get? (base ++ r) = some .directory := by
    rw [h.eq_of_ne_none hr]
    exact hplan.isRooted r name _ hfile
  have hfree : t.IsFree (base ++ r ++ [name]) := by
    rw [IsFree, List.append_assoc]
    rcases h.agrees (r ++ [name]) with hnone | hsame
    · exact .inl hnone
    · exact .inr ⟨content, hsame.trans hfile⟩
  rw [writeFile_of_follow (hplan.names _ _ hfile name (by simp)).1
    (follow_eq_ok.mpr ⟨h.leads hplan hthere, hthere⟩) hfree, List.append_assoc]

end Shows

end Tree

end GlyphSearch.Files

namespace GlyphSearch.Tar

open Files Text

/-! ## Items -/

/-- An item in its place in a plan. -/
def Item.IsIn (item : Item) (plan : Tree) : Prop :=
  item.route ≠ [] ∧ plan.get? item.route = some item.node

instance (item : Item) (plan : Tree) : Decidable (item.IsIn plan) :=
  inferInstanceAs (Decidable (_ ∧ _))

/-- The items of a plan, in whatever order: all its files, and of its
directories at least those that are empty. -/
structure Lists (plan : Tree) (items : List Item) : Prop where
  isIn : ∀ item ∈ items, item.IsIn plan
  file : ∀ r content, plan.get? r = some (.file content) → .file r content ∈ items
  empty : ∀ r, r ≠ [] → plan.get? r = some .directory →
    (∀ name, plan.get? (r ++ [name]) = none) → .directory r ∈ items

theorem Lists.perm {plan : Tree} {items items' : List Item} (h : Lists plan items)
    (hperm : items'.Perm items) : Lists plan items' where
  isIn item hitem := h.isIn item (hperm.mem_iff.mp hitem)
  file r content hfile := hperm.mem_iff.mpr (h.file r content hfile)
  empty r hr hthere hnothing := hperm.mem_iff.mpr (h.empty r hr hthere hnothing)

/-- What a node is as an item. -/
def itemOf? (r : Route) : Node → Option Item
  | .directory => some (.directory r)
  | .file content => some (.file r content)
  | .link _ | .device _ => none

/-- All items of a plan. -/
def itemsOf (plan : Tree) : List Item :=
  plan.nodes.filterMap fun node =>
    if node.1 ≠ [] ∧ plan.get? node.1 = some node.2 then itemOf? node.1 node.2 else none

theorem mem_itemsOf {plan : Tree} {item : Item} : item ∈ itemsOf plan ↔ item.IsIn plan := by
  rw [itemsOf, List.mem_filterMap]
  constructor
  · rintro ⟨⟨r, n⟩, -, hitem⟩
    obtain ⟨⟨hr, hn⟩, hitem⟩ := Option.ite_none_right_eq_some.mp hitem
    cases n with
    | directory =>
        cases hitem
        exact ⟨hr, hn⟩
    | file content =>
        cases hitem
        exact ⟨hr, hn⟩
    | link target => cases hitem
    | device content => cases hitem
  · rintro ⟨hr, hn⟩
    refine ⟨(item.route, item.node), Tree.mem_nodes hr hn, ?_⟩
    rw [if_pos ⟨hr, hn⟩]
    cases item <;> rfl

/-- There is always a way to list a plan. -/
theorem lists_itemsOf (plan : Tree) : Lists plan (itemsOf plan) where
  isIn _ hitem := mem_itemsOf.mp hitem
  file r content hfile := by
    refine mem_itemsOf.mpr ⟨?_, hfile⟩
    rintro rfl
    cases hfile
  empty r hr hthere _ := mem_itemsOf.mpr ⟨hr, hthere⟩

theorem exists_length_le (t : Tree) :
    ∃ bound, ∀ r n, r ≠ [] → t.get? r = some n → r.length ≤ bound := by
  refine ⟨(t.nodes.map fun node => node.1.length).sum, fun r n hr hn => ?_⟩
  obtain ⟨before, after, hnodes⟩ := List.append_of_mem (Tree.mem_nodes hr hn)
  rw [hnodes, List.map_append, List.map_cons, List.sum_append, List.sum_cons]
  dsimp only
  omega

/-- Whatever is planned has an item at its place or below it. -/
theorem Lists.exists_below {plan : Tree} {items : List Item} (h : Lists plan items) {r : Route}
    {n : Node} (hplan : plan.IsPlan) (hr : r ≠ []) (hn : plan.get? r = some n) :
    ∃ item ∈ items, r <+: item.route := by
  obtain ⟨bound, hbound⟩ := exists_length_le plan
  -- By going down from directory to directory, which ends as the plan is finite.
  induction hleft : bound - r.length using Nat.strongRecOn generalizing r n with
  | ind left ih =>
      rcases hplan.plain r n hn with rfl | ⟨content, rfl⟩
      · by_cases hempty : ∀ name, plan.get? (r ++ [name]) = none
        · exact ⟨_, h.empty r hr hn hempty, List.prefix_refl r⟩
        · obtain ⟨name, hname⟩ := not_forall.mp hempty
          obtain ⟨n, hn⟩ := Option.ne_none_iff_exists'.mp hname
          have hlength := hbound _ n (by simp) hn
          rw [List.length_append, List.length_singleton] at hlength
          obtain ⟨item, hitem, hbelow⟩ := ih (bound - (r ++ [name]).length)
            (by rw [List.length_append, List.length_singleton]; omega) (by simp) hn rfl
          exact ⟨item, hitem, (List.prefix_append r [name]).trans hbelow⟩
      · exact ⟨_, h.file r content hn, List.prefix_refl r⟩

/-! ## Extraction of a member -/

/-- What has become of an extraction after some more items. -/
structure Extracts (plan origin : Tree) (base : Route) (p : Progress) (items : List Item)
    (q : Progress) : Prop where
  shows : plan.Shows origin base q.tree
  keeps : p.tree.Keeps q.tree
  there : ∀ item ∈ items, q.tree.get? (base ++ item.route) ≠ none
  files : q.files = p.files + items.countP Item.isFile
  directories : q.directories = p.directories + items.countP Item.isDirectory
  bytes : q.bytes = p.bytes + (items.flatMap Item.content).length
  members : q.members = p.members + items.length

section Members

variable {plan origin : Tree} {base : Route} {p q : Progress} {items : List Item}

theorem Extracts.refl (h : plan.Shows origin base p.tree) : Extracts plan origin base p [] p :=
  ⟨h, fun _ hr => hr, by simp, rfl, rfl, rfl, rfl⟩

theorem Extracts.trans {q' : Progress} {items' : List Item} (h : Extracts plan origin base p items q)
    (h' : Extracts plan origin base q items' q') :
    Extracts plan origin base p (items ++ items') q' where
  shows := h'.shows
  keeps := h.keeps.trans h'.keeps
  there item hitem := by
    rcases List.mem_append.mp hitem with hitem | hitem
    · exact h'.keeps _ (h.there item hitem)
    · exact h'.there item hitem
  files := by rw [h'.files, h.files, List.countP_append, Nat.add_assoc]
  directories := by rw [h'.directories, h.directories, List.countP_append, Nat.add_assoc]
  bytes := by rw [h'.bytes, h.bytes, List.flatMap_append, List.length_append, Nat.add_assoc]
  members := by rw [h'.members, h.members, List.length_append, Nat.add_assoc]

/-- No path of the plan is too long for a file below the base. -/
def FitsBelow (plan : Tree) (base : Route) : Prop :=
  ∀ r n, r ≠ [] → plan.get? r = some n →
    Tree.checkPath (Route.absolutePath (base ++ r)) = .ok ()

theorem fitsBelow_of_nodes (h : ∀ node ∈ plan.nodes,
    0 ∉ Route.absolutePath (base ++ node.1) ∧ Route.absolutePath (base ++ node.1) ≠ [] ∧
      (Route.absolutePath (base ++ node.1)).length < pathLimit) : FitsBelow plan base :=
  fun _ _ hr hn => Tree.checkPath_eq_ok.mpr (h _ (Tree.mem_nodes hr hn))

theorem Progress.checkTarget_eq (hfits : FitsBelow plan base) {r : Route} {n : Node} (hr : r ≠ [])
    (hn : plan.get? r = some n) (p : Progress) : p.checkTarget (base ++ r) = (p, .ok ()) := by
  rw [checkTarget, hfits r n hr hn]
  rfl

theorem Progress.makeDirectories_spec (hplan : plan.IsPlan) (hfits : FitsBelow plan base)
    (h : plan.Shows origin base p.tree) {r : Route} (hr : plan.get? r = some .directory) :
    ∃ t, p.makeDirectories base r = ({ p with tree := t }, .ok ()) ∧ plan.Shows origin base t ∧
      p.tree.Keeps t ∧ t.get? (base ++ r) ≠ none := by
  rw [makeDirectories]
  by_cases hempty : r = []
  · rw [if_pos hempty, hempty, List.append_nil]
    exact ⟨p.tree, rfl, h, fun _ hs => hs, h.isThere⟩
  · have hbase : p.tree.get? (base ++ []) ≠ none := by
      rw [List.append_nil]
      exact h.isThere
    obtain ⟨t, hmade, hshows, hkeeps, hthere⟩ := h.makeDirectories hplan (r := []) hbase hr
    rw [List.append_nil] at hmade
    refine ⟨t, ?_, hshows, hkeeps, hthere⟩
    rw [if_neg hempty, checkTarget_eq hfits hempty hr, Step.andThen, changeTree, hmade]
    rfl

theorem extractDirectory_spec (hplan : plan.IsPlan) (hfits : FitsBelow plan base)
    (h : plan.Shows origin base p.tree) {r : Route} (hitem : (Item.directory r).IsIn plan) :
    ∃ q, extractDirectory p base r = (q, .ok ()) ∧ Extracts plan origin base p [.directory r] q := by
  have hr : r ≠ [] := hitem.1
  have hdirectory : plan.get? r = some .directory := hitem.2
  obtain ⟨t, hmade, hshows, hkeeps, hthere⟩ :=
    Progress.makeDirectories_spec hplan hfits h hdirectory
  rw [extractDirectory, if_neg hr, hmade]
  refine ⟨_, rfl, hshows, hkeeps, fun item hitem => ?_, rfl, rfl, rfl, rfl⟩
  rw [List.mem_singleton.mp hitem]
  exact hthere

theorem extractFile_spec (hplan : plan.IsPlan) (hfits : FitsBelow plan base)
    (h : plan.Shows origin base p.tree) {r : Route} {content : Bytes}
    (hitem : (Item.file r content).IsIn plan) {m : Member} (hsize : m.size = content.length)
    (hdata : content <+: m.reader.source.content) :
    ∃ q, extractFile p base r m = (q, .ok ()) ∧ Extracts plan origin base p [.file r content] q := by
  have hr : r ≠ [] := hitem.1
  have hfile : plan.get? r = some (.file content) := hitem.2
  obtain ⟨above, name, rfl⟩ : ∃ above name, r = above ++ [name] :=
    ⟨_, _, (List.dropLast_concat_getLast hr).symm⟩
  have habove := hplan.isRooted above name _ hfile
  obtain ⟨t, hmade, hshows, hkeeps, hthere⟩ := Progress.makeDirectories_spec hplan hfits h habove
  have hwrite := hshows.writeFile hplan hthere hfile
  have hcomplete : m.shortFault = .ok () := if_pos (hsize ▸ hdata.length_le)
  rw [extractFile, if_neg hr, List.dropLast_concat, hmade, hsize, ← List.prefix_iff_eq_take.mp hdata]
  simp only [Step.andThen, Progress.checkTarget_eq hfits hr hfile, Progress.changeTree, hwrite,
    hcomplete, Except.mapError]
  refine ⟨_, rfl, hshows.set hthere hfile, hkeeps.trans (Tree.keeps_set _ _ _), ?_, rfl, rfl,
    by simp [Item.content], rfl⟩
  intro item hitem
  rw [List.mem_singleton.mp hitem, Item.route, Tree.get?_set_self _ _ (by simp)]
  simp

theorem extractMember_directory {m : Member} {path : Path} {data : Bytes} {r : Route}
    (hm : m.Carries .directory path data) (hpath : memberRoute path = .ok r) :
    extractMember p base m = extractDirectory p base r := by
  rw [extractMember, hm.kind_eq, hm.path_eq, hpath]
  rfl

theorem extractMember_file {m : Member} {path : Path} {data : Bytes} {r : Route}
    (hm : m.Carries .regular path data) (hpath : memberRoute path = .ok r) :
    extractMember p base m = extractFile p base r m := by
  rw [extractMember, hm.kind_eq, hm.path_eq, hpath]
  rfl

theorem extractMember_globalExtensions {m : Member} {path : Path} {data : Bytes}
    (hm : m.Carries .globalExtensions path data) : extractMember p base m = (p, .ok ()) := by
  rw [extractMember, hm.kind_eq]
  rfl

theorem Item.IsIn.names {item : Item} (h : item.IsIn plan) (hplan : plan.IsPlan) :
    ∀ name ∈ item.route, IsMemberName name := hplan.names _ _ h.2

/-- One entry and then what is behind it. -/
theorem IsEntry.extracts {kind : Kind} {path : Path} {data bytes more : Bytes} {rest : List Item}
    (hentry : IsEntry kind path data bytes)
    (hkind : kind ∉ [.longName, .longLink, .extensions, .sparse]) {position : Nat}
    (hsize : position + (bytes ++ more).length < sizeLimit)
    (hstep : ∀ m : Member, m.Carries kind path data → ∃ p', extractMember p base m = (p', .ok ()) ∧
      Extracts plan origin base p items p')
    (hmore : ∀ {position : Nat} {p : Progress}, position + more.length < sizeLimit →
      plan.Shows origin base p.tree →
      ∃ q, extractRest base p (.ofBytesAt position more) = (q, .ok ()) ∧
        Extracts plan origin base p rest q) :
    ∃ q, extractRest base p (.ofBytesAt position (bytes ++ more)) = (q, .ok ()) ∧
      Extracts plan origin base p (items ++ rest) q := by
  rw [List.length_append, ← Nat.add_assoc] at hsize
  obtain ⟨m, hm, hrest⟩ := hentry.extractRest_eq hkind
    (Nat.lt_of_le_of_lt (Nat.le_add_right ..) hsize) more
  obtain ⟨p', hdone, hextracts⟩ := hstep m hm
  obtain ⟨q, hrun, hall⟩ := hmore hsize hextracts.shows
  refine ⟨q, ?_, hextracts.trans hall⟩
  rw [hrest, hdone]
  exact hrun

theorem nextMember_of_zeros (position : Nat) (rest : Bytes) :
    (Reader.ofBytesAt position (List.replicate blockSize 0 ++ rest)).nextMember = .ok none := by
  have hskip : (Reader.ofBytesAt position (List.replicate blockSize 0 ++ rest)).skip =
      .ok (.ofBytesAt position (List.replicate blockSize 0 ++ rest)) :=
    Reader.skip_eq_ok.mpr ⟨Nat.zero_le _, rfl⟩
  have hblock : (Reader.ofBytesAt position (List.replicate blockSize 0 ++ rest)).nextBlock =
      .ok (some ⟨List.replicate blockSize 0⟩) := by
    refine Reader.nextBlock_eq_some.mpr ⟨?_, ?_⟩
    · simp [Reader.ofBytesAt, Source.ofBytes]
    · simp [Reader.ofBytesAt, Source.ofBytes]
  exact Reader.nextMember_of_isZero hskip hblock (by simp [Header.isZero])

/-- The run of an extraction, by induction on the packing: each member finds a
part of the plan and leaves a part with its item. -/
theorem extractRest_of_packed (hplan : plan.IsPlan) (hfits : FitsBelow plan base)
    {archive : Bytes} (hpacked : Packed items archive) (hitems : ∀ item ∈ items, item.IsIn plan)
    {position : Nat} (hsize : position + archive.length < sizeLimit)
    (h : plan.Shows origin base p.tree) :
    ∃ q, extractRest base p (.ofBytesAt position archive) = (q, .ok ()) ∧
      Extracts plan origin base p items q := by
  induction hpacked generalizing position p with
  | ended => exact ⟨p, extractRest_of_none rfl, .refl h⟩
  | marked rest => exact ⟨p, extractRest_of_none (nextMember_of_zeros position rest), .refl h⟩
  | directory hentry hpath hmore ih =>
      have hitem := hitems _ List.mem_cons_self
      have hroute := hpath.memberRoute_eq (hitem.names hplan)
      rw [← List.singleton_append]
      refine hentry.extracts (by decide) hsize (fun m hm => ?_)
        (ih fun item hmem => hitems item (List.mem_cons_of_mem _ hmem))
      rw [extractMember_directory hm hroute]
      exact extractDirectory_spec hplan hfits h hitem
  | file hentry hpath hmore ih =>
      have hitem := hitems _ List.mem_cons_self
      have hroute := hpath.memberRoute_eq (hitem.names hplan)
      rw [← List.singleton_append]
      refine hentry.extracts (by decide) hsize (fun m hm => ?_)
        (ih fun item hmem => hitems item (List.mem_cons_of_mem _ hmem))
      rw [extractMember_file hm hroute]
      exact extractFile_spec hplan hfits h hitem hm.size_eq hm.data
  | root hentry hpath hmore ih =>
      have hroute := hpath.memberRoute_eq (by simp)
      refine hentry.extracts (by decide) hsize (fun m hm => ⟨p, ?_, .refl h⟩) (ih hitems)
      rw [extractMember_directory hm hroute]
      rfl
  | globalExtensions hentry hmore ih =>
      exact hentry.extracts (by decide) hsize
        (fun m hm => ⟨p, extractMember_globalExtensions hm, .refl h⟩) (ih hitems)

/-- With all items of a plan, the whole plan is there to see. -/
theorem Extracts.get?_eq (h : Extracts plan origin base p items q) (hplan : plan.IsPlan)
    (hlists : Lists plan items) (r : Route) : q.tree.get? (base ++ r) = plan.get? r := by
  have habove : ∀ more r, q.tree.get? (base ++ (r ++ more)) ≠ none →
      q.tree.get? (base ++ r) ≠ none := by
    intro more
    induction more using List.reverseRecOn with
    | nil =>
        intro r hr
        rwa [List.append_nil] at hr
    | append_singleton more name ih =>
        intro r hr
        rw [← List.append_assoc r] at hr
        exact ih r (h.shows.above (r ++ more) name hr)
  cases hn : plan.get? r with
  | none =>
      rcases h.shows.agrees r with hnone | hsame
      · exact hnone
      · rw [hsame, hn]
  | some n =>
      rw [← hn]
      refine h.shows.eq_of_ne_none ?_
      by_cases hr : r = []
      · rw [hr, List.append_nil]
        exact h.shows.isThere
      · obtain ⟨item, hitem, more, hroute⟩ := hlists.exists_below hplan hr hn
        refine habove more r ?_
        rw [hroute]
        exact h.there item hitem

end Members

/-! ## The whole packing -/

/-- A directory with nothing in it. -/
def IsEmptyDirectory (t : Tree) (r : Route) : Prop :=
  t.get? r = some .directory ∧ ∀ q, r <+: q → q ≠ r → t.get? q = none

theorem shows_of_isEmptyDirectory {t plan : Tree} {base : Route} (h : IsEmptyDirectory t base) :
    plan.Shows t base t := by
  obtain ⟨hthere, hnothing⟩ := h
  have hnone : ∀ r, r ≠ [] → t.get? (base ++ r) = none :=
    fun r hr => hnothing _ (List.prefix_append ..) (by simp [hr])
  refine ⟨by simp [hthere], fun r => ?_, fun r name hr => ?_, fun _ _ => rfl⟩
  · by_cases hr : r = []
    · rw [hr, List.append_nil, Tree.get?_nil]
      exact .inr hthere
    · exact .inl (hnone r hr)
  · exact absurd (hnone _ (by simp)) hr

/-- What the extraction of a packing comes to. -/
structure Restores (origin plan : Tree) (destination : Route) (items : List Item) (p : Progress) :
    Prop where
  inside : ∀ r, p.tree.get? (destination ++ r) = plan.get? r
  outside : ∀ r, ¬ destination <+: r → p.tree.get? r = origin.get? r
  files : p.files = items.countP Item.isFile
  directories : p.directories = items.countP Item.isDirectory
  bytes : p.bytes = (items.flatMap Item.content).length
  members : p.members = p.files + p.directories

section Whole

variable {origin plan : Tree} {destination : Route} {items : List Item} {archive : Bytes}

theorem extractPlain_of_packed (hplan : plan.IsPlan) (hlists : Lists plan items)
    (hfits : FitsBelow plan destination) (hempty : IsEmptyDirectory origin destination)
    (hpacked : Packed items archive) (hsize : archive.length < sizeLimit) :
    ∃ p, extractPlain origin destination archive = (p, .ok ()) ∧
      Restores origin plan destination items p := by
  rw [← Nat.zero_add archive.length] at hsize
  obtain ⟨p, hrun, hall⟩ := extractRest_of_packed (p := ⟨origin, 0, 0, 0, 0⟩) hplan hfits hpacked
    hlists.isIn hsize (shows_of_isEmptyDirectory hempty)
  refine ⟨p, (extractSource_eq ..).trans hrun, hall.get?_eq hplan hlists, hall.shows.outside,
    by simp [hall.files], by simp [hall.directories], by simp [hall.bytes], ?_⟩
  have hcount : items.length = items.countP Item.isFile + items.countP Item.isDirectory := by
    rw [List.length_eq_countP_add_countP Item.isFile]
    congr 2
    funext item
    simp [Item.isDirectory]
  rw [hall.members, hall.files, hall.directories]
  dsimp only
  omega

/-- A packing of a plan, in whatever order and form, is extracted into an empty
directory to that plan, and nothing else is changed. The numbers that are
reported are those of the items. Another packing of the same items comes to the
same tree and the same numbers.

Archives end below the limit that positions in them have, and the paths of what
is made have the length that paths may have. -/
theorem packing_is_extracted_to_its_plan (hplan : plan.IsPlan) (hlists : Lists plan items)
    (hfits : FitsBelow plan destination) (hempty : IsEmptyDirectory origin destination)
    (hpacked : Packed items archive) (hsize : archive.length < sizeLimit) :
    ∃ p, extractPlain origin destination archive = (p, .ok ()) ∧
      Restores origin plan destination items p ∧
      ∀ items' archive', items'.Perm items → Packed items' archive' →
        archive'.length < sizeLimit →
        ∃ p', extractPlain origin destination archive' = (p', .ok ()) ∧
          (∀ r, p'.tree.get? r = p.tree.get? r) ∧ p'.files = p.files ∧
          p'.directories = p.directories ∧ p'.bytes = p.bytes ∧ p'.members = p.members := by
  obtain ⟨p, hrun, hp⟩ := extractPlain_of_packed hplan hlists hfits hempty hpacked hsize
  refine ⟨p, hrun, hp, fun items' archive' hperm hpacked' hsize' => ?_⟩
  obtain ⟨p', hrun', hp'⟩ :=
    extractPlain_of_packed hplan (hlists.perm hperm) hfits hempty hpacked' hsize'
  have hfiles : p'.files = p.files := by
    rw [hp'.files, hp.files, hperm.countP_eq]
  have hdirectories : p'.directories = p.directories := by
    rw [hp'.directories, hp.directories, hperm.countP_eq]
  have hbytes : p'.bytes = p.bytes := by
    rw [hp'.bytes, hp.bytes, (hperm.flatMap_right Item.content).length_eq]
  refine ⟨p', hrun', fun r => ?_, hfiles, hdirectories, hbytes, ?_⟩
  · by_cases hr : destination <+: r
    · obtain ⟨rest, rfl⟩ := hr
      rw [hp'.inside, hp.inside]
    · rw [hp'.outside r hr, hp.outside r hr]
  · rw [hp'.members, hp.members, hfiles, hdirectories]

end Whole

/-- A file without a member for its directory, and an empty directory. The file
comes first and begins with a step on the spot, behind a member for the
destination; or all is packed the other way round. -/
theorem packing_is_extracted_to_its_plan_of_two_items :
    let plan : Tree := ⟨[([bytes "d"], .directory), ([bytes "d", bytes "f"], .file (bytes "hi")),
      ([bytes "e"], .directory)]⟩
    let destination : Route := [bytes "out"]
    let origin : Tree := ⟨[(destination, .directory)]⟩
    let items : List Item := [.file [bytes "d", bytes "f"] (bytes "hi"), .directory [bytes "e"]]
    let archive := introduce (byte '5') (bytes "./") 0 ++ fill [] ++
      (introduce (byte '0') (bytes "./d/f") (bytes "hi").length ++ fill (bytes "hi") ++
        pack [.directory [bytes "e"]])
    plan.IsPlan ∧ Lists plan items ∧ FitsBelow plan destination ∧
    IsEmptyDirectory origin destination ∧ Packed items archive ∧ archive.length < sizeLimit ∧
    ∃ p, extractPlain origin destination archive = (p, .ok ()) ∧
      p.tree.get? [bytes "out", bytes "d", bytes "f"] = some (.file (bytes "hi")) ∧
      p.files = 1 ∧ p.directories = 1 ∧
      ∃ p', extractPlain origin destination (pack items.reverse) = (p', .ok ()) ∧
        ∀ r, p'.tree.get? r = p.tree.get? r := by
  intro plan destination origin items archive
  have hplan : plan.IsPlan := Tree.isPlan_of_nodes (by decide +kernel)
  have hlists : Lists plan items := by
    refine ⟨by decide +kernel, fun r content hfile => ?_, fun r hr hthere hnothing => ?_⟩
    · have hr : r ≠ [] := by
        rintro rfl
        cases hfile
      have hmem := Tree.mem_nodes hr hfile
      simp only [plan, List.mem_cons, Prod.mk.injEq, reduceCtorEq, and_false, List.not_mem_nil,
        or_false, false_or] at hmem
      obtain ⟨rfl, hcontent⟩ := hmem
      cases hcontent
      exact List.mem_cons_self
    · have hmem := Tree.mem_nodes hr hthere
      simp only [plan, List.mem_cons, Prod.mk.injEq, reduceCtorEq, and_false, and_true,
        List.not_mem_nil, or_false, false_or] at hmem
      rcases hmem with rfl | rfl
      · cases hnothing (bytes "f")
      · exact List.mem_cons_of_mem _ List.mem_cons_self
  have hfits : FitsBelow plan destination := fitsBelow_of_nodes (by decide +kernel)
  have hempty : IsEmptyDirectory origin destination := by
    refine ⟨rfl, ?_⟩
    rintro _ ⟨rest, rfl⟩ hne
    cases rest with
    | nil => exact absurd rfl hne
    | cons name more => rfl
  have hpackable : ∀ item ∈ items, item.IsPackable := by
    decide +kernel
  have hpacked : Packed items archive := by
    have hroot : IsEntry .directory (bytes "./") [] (introduce (byte '5') (bytes "./") 0 ++ fill []) :=
      ⟨_, _, introduces_introduce (byte '5') (by decide) (by decide) (by decide +kernel),
        isFilled_fill [], rfl⟩
    have hfile : IsEntry .regular (bytes "./d/f") (bytes "hi") _ :=
      ⟨_, _, introduces_introduce (byte '0') (by decide +kernel) (by decide +kernel)
        (by decide +kernel), isFilled_fill (bytes "hi"), rfl⟩
    have hpath := (spells_relativePath (hpackable _ List.mem_cons_self).names).dot_slash
    exact .root hroot ⟨rfl, rfl⟩ (.file hfile hpath
      (packed_pack fun item hitem => hpackable item (List.mem_cons_of_mem _ hitem)))
  have hsize : archive.length < sizeLimit := by decide +kernel
  have hreverse : (pack items.reverse).length < sizeLimit := by decide +kernel
  obtain ⟨p, hrun, hp, hothers⟩ :=
    packing_is_extracted_to_its_plan hplan hlists hfits hempty hpacked hsize
  obtain ⟨p', hrun', hsame, -⟩ := hothers items.reverse (pack items.reverse)
    (List.reverse_perm items) (packed_pack fun item hitem => hpackable item (List.mem_reverse.mp hitem))
    hreverse
  exact ⟨hplan, hlists, hfits, hempty, hpacked, hsize, p, hrun,
    (hp.inside [bytes "d", bytes "f"]).trans rfl, hp.files.trans rfl, hp.directories.trans rfl, p',
    hrun', hsame⟩

end GlyphSearch.Tar
