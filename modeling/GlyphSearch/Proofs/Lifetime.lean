import GlyphSearch.Proofs.Operations
import GlyphSearch.Proofs.Unpacking

/-!
# How long a temporary directory lasts

The directory that an archive is unpacked into has several owners one after the
other: the load that has fetched it, then the dataset that was opened in it,
which is the loader's, and at last whoever still refers to the dataset when the
loader is closed.

`Phase` says what is on the disk at every point of a run. Before the load has
fetched anything the disk is as it was, then it is as the load has left it until
the last owner is gone, and from then on it is without the directory. Every step
keeps this, and none leads back.
-/

namespace GlyphSearch

open Dataset Files Loading Text

/-- What a fetch leaves on the disk when nobody wants its directory. -/
def Dataset.Fetched.leftover (f : Fetched) : Disk :=
  match f.result with
  | .ok directory => directory.discard f.disk
  | .error _ => f.disk

theorem Dataset.Fetched.leftover_of_ok {f : Fetched} {directory : Directory}
    (h : f.result = .ok directory) : f.leftover = directory.discard f.disk := by
  rw [leftover, h]

theorem Dataset.Fetched.leftover_of_error {f : Fetched} {e : Error} (h : f.result = .error e) :
    f.leftover = f.disk := by
  rw [leftover, h]

namespace Service

variable {s t : Service} {w w' : Work} {o : Outcome}

/-! ## What is on the disk -/

/-- How far the directory of a dataset is on its way. `f` is what the fetch from
the disk `d₀` comes to. -/
inductive Phase (d₀ : Disk) (f : Fetched) (t : Service) : Work → Prop
  | ahead (hnone : ¬ t.HasLoaded) (hdisk : t.disk = d₀) : Phase d₀ f t .ahead
  | fetched {directory : Directory} (hresult : f.result = .ok directory) (hnone : ¬ t.HasLoaded)
      (hdisk : t.disk = f.disk) : Phase d₀ f t (.holds directory)
  | inUse {directory : Directory} {d : Dataset} (hresult : f.result = .ok directory)
      (hloaded : some (.ok d) ∈ t.loader.loads) (hdirectory : d.directory = some directory)
      (hin : t.loaderIsOpen = true ∨ 0 < t.references) (hdisk : t.disk = f.disk) :
      Phase d₀ f t .over
  | gone (hnot : ¬ t.IsOwned .over) (hdisk : t.disk = f.leftover) : Phase d₀ f t .over

variable {d₀ : Disk} {f : Fetched}

theorem not_isOwned_of_not_hasLoaded (h : ¬ s.HasLoaded) : ¬ s.IsOwned .over := by
  rintro (⟨directory, hw⟩ | ⟨hloaded, -⟩)
  · cases hw
  · exact h hloaded

theorem isOwned_over_iff :
    s.IsOwned .over ↔ s.HasLoaded ∧ (s.loaderIsOpen = true ∨ 0 < s.references) :=
  ⟨fun h => h.resolve_left (by simp), .inr⟩

/-- A step that neither touches the disk nor ends a load with a dataset, and
after which somebody has the dataset exactly if somebody had it before. -/
theorem Phase.congr (h : Phase d₀ f s w) (hdisk : t.disk = s.disk)
    (hloads : ∀ d, some (.ok d) ∈ t.loader.loads ↔ some (.ok d) ∈ s.loader.loads)
    (hin : s.HasLoaded → ((t.loaderIsOpen = true ∨ 0 < t.references) ↔
      (s.loaderIsOpen = true ∨ 0 < s.references))) : Phase d₀ f t w := by
  have hhas : t.HasLoaded ↔ s.HasLoaded := exists_congr hloads
  cases h with
  | ahead hnone hsame => exact .ahead (mt hhas.mp hnone) (hdisk.trans hsame)
  | fetched hresult hnone hsame =>
      exact .fetched hresult (mt hhas.mp hnone) (hdisk.trans hsame)
  | inUse hresult hloaded hdirectory howned hsame =>
      exact .inUse hresult ((hloads _).mpr hloaded) hdirectory ((hin ⟨_, hloaded⟩).mpr howned)
        (hdisk.trans hsame)
  | gone hnot hsame =>
      refine .gone (fun howned => hnot ?_) (hdisk.trans hsame)
      rw [isOwned_over_iff] at howned ⊢
      have hloaded := hhas.mp howned.1
      exact ⟨hloaded, (hin hloaded).mp howned.2⟩

theorem discardOutcome_disk {d : Dataset} {directory : Directory}
    (hdirectory : d.directory = some directory) (s : Service) :
    (s.discardOutcome (.ok d)).disk = directory.discard s.disk := by
  rw [discardOutcome, hdirectory]
  rfl

theorem endLoad_disk_of_open (loaded : Loaded) (load : Nat) (hopen : s.loaderIsOpen = true) :
    (endLoad (conclude loaded) s load).disk = loaded.disk := by
  rw [endLoad]
  dsimp only
  split
  · rfl
  · next hclosed => exact absurd hopen hclosed

theorem endLoad_disk_of_error {loaded : Loaded} {e : Error} (herror : loaded.result = .error e)
    (s : Service) (load : Nat) : (endLoad (conclude loaded) s load).disk = loaded.disk := by
  have hresult : (conclude loaded s).2 = .error e := herror
  rw [endLoad]
  dsimp only
  rw [hresult]
  split <;> rfl

theorem endLoad_disk_of_closed {loaded : Loaded} {d : Dataset} {directory : Directory}
    (hok : loaded.result = .ok d) (hdirectory : d.directory = some directory) (load : Nat)
    (hclosed : s.loaderIsOpen ≠ true) :
    (endLoad (conclude loaded) s load).disk = directory.discard loaded.disk := by
  have hresult : (conclude loaded s).2 = .ok d := hok
  rw [endLoad]
  dsimp only
  rw [hresult]
  split
  · next hopen => exact absurd hopen hclosed
  · exact discardOutcome_disk hdirectory _

/-- The dataset that was opened in a directory is closed by removing it. -/
theorem closeDataset_disk {d : Dataset} {directory : Directory}
    (hdirectory : d.directory = some directory) (s : Service) :
    (s.closeDataset d).1.disk = directory.discard s.disk := by
  rw [closeDataset, hdirectory]
  cases directory <;> rfl

/-- Nothing is unheard of but what the only load has come to. -/
theorem mem_loads_of_unheard (ho : s.loader.unheard? = some o) :
    some o ∈ s.loader.loads := by
  obtain ⟨load, -, hload⟩ := Option.bind_eq_some_iff.mp ho
  exact List.mem_of_getElem? (Option.join_eq_some_iff.mp hload)

/-- A dataset that nobody has heard of is with the pending load. -/
theorem Sound.unheard_eq (h : s.Sound) (hnone : s.loader.published = none)
    (ho : some o ∈ s.loader.loads) : s.loader.unheard? = some o := by
  obtain ⟨load, hpending⟩ := Option.isSome_iff_exists.mp
    (h.one.pending_isSome hnone (List.ne_nil_of_mem ho))
  have hlt := h.known.pending load hpending
  have hload := h.one.eq_of_mem (List.getElem_mem hlt) ho
  rw [Shared.unheard?, hpending, Option.bind_some, List.getElem?_eq_getElem hlt, hload]
  rfl

/-- An opened dataset stays with the loader, or is thrown away where there is
no loader any more. -/
theorem Phase.opened {directory : Directory} {d : Dataset} {load : Nat} (hs : s.Sound)
    (h : Phase d₀ f s (.holds directory)) (hload : s.loader.loads[load]? = some none)
    (hdirectory : d.directory = some directory) (members : Nat) (log : List Log.Entry) :
    Phase d₀ f (endLoad (conclude ⟨s.disk, members, .ok d, log⟩) s load) .over := by
  cases h with
  | fetched hresult hnone hdisk =>
      have hloader := endLoad_loader_of_underWay ⟨s.disk, members, .ok d, log⟩ hload
      obtain ⟨hopen, hreferences, -, -⟩ :=
        endLoad_frame ⟨s.disk, members, .ok d, log⟩ s load
      by_cases hthere : s.loaderIsOpen = true
      · refine .inUse hresult ?_ hdirectory (.inl (hopen.trans hthere)) ?_
        · rw [hloader]
          exact (mem_loads_set hload).mpr (.inr rfl)
        · exact (endLoad_disk_of_open _ load hthere).trans hdisk
      · refine .gone ?_ ?_
        · rw [isOwned_over_iff, hopen, hreferences, hs.references_eq_zero hnone]
          rintro ⟨-, hin | hin⟩
          · exact hthere hin
          · exact absurd hin (Nat.lt_irrefl 0)
        · rw [endLoad_disk_of_closed rfl hdirectory load hthere, hdisk,
            Fetched.leftover_of_ok hresult]

theorem Phase.failed {load : Nat} (h : Phase d₀ f s w) (hload : s.loader.loads[load]? = some none)
    (e : Error) (members : Nat) (log : List Log.Entry) :
    Phase d₀ f (endLoad (conclude ⟨s.disk, members, .error e, log⟩) s load) w := by
  have hloader := endLoad_loader_of_underWay ⟨s.disk, members, .error e, log⟩ hload
  obtain ⟨hopen, hreferences, -, -⟩ := endLoad_frame ⟨s.disk, members, .error e, log⟩ s load
  refine h.congr (endLoad_disk_of_error rfl s load) (fun d => ?_) fun _ => by
    rw [hopen, hreferences]
  rw [hloader, mem_loads_set hload]
  simp

/-- The last reference to a dataset without loader takes the directory along. -/
theorem Phase.released {kept : Nat} {started : List Nat} (hs : s.Sound) (h : Phase d₀ f s w)
    (hkept : kept ≤ s.kept) (hstarted : started.Sublist s.started) :
    Phase d₀ f (s.release kept started) w := by
  have hle := references_le hkept hstarted
  have hsame : (s.loaderIsOpen = true ∨ 0 < { s with kept, started }.references ∨
      s.references = 0) → Phase d₀ f { s with kept, started } w := by
    intro hcases
    refine h.congr rfl (fun _ => Iff.rfl) fun _ => ?_
    rcases hcases with hopen | hpos | hzero
    · exact iff_of_true (.inl hopen) (.inl hopen)
    · exact iff_of_true (.inr hpos) (.inr (by omega))
    · have hzero' : { s with kept, started }.references = 0 := by omega
      rw [hzero, hzero']
  rw [release]
  dsimp only
  split
  · next n d hreferences hreferences' hopen hd =>
      have hloaded := hs.hasLoaded hd
      cases h with
      | ahead hnone => exact absurd ⟨d, hloaded⟩ hnone
      | fetched _ hnone => exact absurd ⟨d, hloaded⟩ hnone
      | gone hnot =>
          rw [isOwned_over_iff, hreferences] at hnot
          exact absurd ⟨⟨d, hloaded⟩, .inr (Nat.succ_pos n)⟩ hnot
      | inUse hresult hmem hdirectory hin hdisk =>
          cases hs.eq_of_mem hloaded hmem
          obtain ⟨disk, hframe⟩ := closeDataset_eq { s with kept, started } d
          have hclosed := closeDataset_disk hdirectory { s with kept, started }
          refine .gone ?_ ?_
          · rw [isOwned_over_iff, hframe]
            rintro ⟨-, hin | hin⟩
            · exact absurd (hopen.symm.trans hin) (by simp)
            · exact absurd hin (Nat.not_lt.mpr (Nat.le_of_eq hreferences'))
          · rw [hclosed, Fetched.leftover_of_ok hresult, ← hdisk]
  · next hnot =>
      refine hsame ?_
      by_cases hopen : s.loaderIsOpen = true
      · exact .inl hopen
      · by_contra hlast
        rw [not_or, not_or] at hlast
        obtain ⟨-, hzero, hpos⟩ := hlast
        obtain ⟨d, hd⟩ := hs.exists_dataset (Nat.pos_of_ne_zero hpos)
        obtain ⟨n, hn⟩ := Nat.exists_eq_succ_of_ne_zero hpos
        exact hnot n d hn (Nat.eq_zero_of_not_pos hzero) (Bool.eq_false_iff.mpr hopen) hd

/-! Closing the loader, by who has the dataset. -/

theorem closeLoader_of_referenced {d : Dataset} (hd : s.dataset? = some d)
    (hpos : 0 < s.references) : s.closeLoader.1 = { s with loaderIsOpen := false } := by
  have hd' : { s with loaderIsOpen := false }.dataset? = some d := hd
  obtain ⟨n, hn⟩ := Nat.exists_eq_succ_of_ne_zero (Nat.ne_of_gt hpos)
  have hn' : { s with loaderIsOpen := false }.references = n + 1 := hn
  rw [closeLoader]
  dsimp only
  rw [hd', hn']
  rfl

theorem closeLoader_of_unreferenced {d : Dataset} (hd : s.dataset? = some d)
    (hzero : s.references = 0) :
    s.closeLoader = { s with loaderIsOpen := false }.closeDataset d := by
  have hd' : { s with loaderIsOpen := false }.dataset? = some d := hd
  have hzero' : { s with loaderIsOpen := false }.references = 0 := hzero
  rw [closeLoader]
  dsimp only
  rw [hd', hzero']
  rfl

theorem closeLoader_of_unheard (hnone : s.dataset? = none) (ho : s.loader.unheard? = some o) :
    s.closeLoader.1 = { s with loaderIsOpen := false }.discardOutcome o := by
  have hnone' : { s with loaderIsOpen := false }.dataset? = none := hnone
  rw [closeLoader]
  dsimp only
  rw [hnone']
  dsimp only
  rw [ho]
  rfl

theorem closeLoader_of_nothing (hnone : s.dataset? = none) (ho : s.loader.unheard? = none) :
    s.closeLoader.1 = { s with loaderIsOpen := false } := by
  have hnone' : { s with loaderIsOpen := false }.dataset? = none := hnone
  rw [closeLoader]
  dsimp only
  rw [hnone']
  dsimp only
  rw [ho]
  rfl

/-- Without a dataset nothing is thrown away. -/
theorem Sound.closeLoader_eq_of_not_hasLoaded (hs : s.Sound) (hnone : ¬ s.HasLoaded) :
    s.closeLoader.1 = { s with loaderIsOpen := false } := by
  have hdataset : s.dataset? = none := by
    by_contra hsome
    obtain ⟨d, hd⟩ := Option.ne_none_iff_exists'.mp hsome
    exact hnone ⟨d, hs.hasLoaded hd⟩
  cases ho : s.loader.unheard? with
  | none => exact closeLoader_of_nothing hdataset ho
  | some o =>
      rw [closeLoader_of_unheard hdataset ho]
      cases o with
      | error e => rfl
      | ok d => exact absurd ⟨d, mem_loads_of_unheard ho⟩ hnone

/-- A dataset that nobody refers to goes with the loader, whether it has been
published or not. -/
theorem Sound.closeLoader_disk (hs : s.Sound) {d : Dataset} {directory : Directory}
    (hmem : some (.ok d) ∈ s.loader.loads) (hdirectory : d.directory = some directory)
    (hzero : s.references = 0) : s.closeLoader.1.disk = directory.discard s.disk := by
  cases hdataset : s.dataset? with
  | some d' =>
      cases hs.eq_of_mem hmem (hs.hasLoaded hdataset)
      rw [closeLoader_of_unreferenced hdataset hzero]
      exact closeDataset_disk hdirectory _
  | none =>
      have hpublished : s.loader.published = none := by
        cases hpublished : s.loader.published with
        | none => rfl
        | some o =>
            cases hs.one.eq_of_mem (hs.loaded o hpublished) hmem
            cases hdataset.symm.trans (dataset?_eq_some.mpr hpublished)
      rw [closeLoader_of_unheard hdataset (hs.unheard_eq hpublished hmem)]
      exact discardOutcome_disk hdirectory _

theorem Phase.closed (hs : s.Sound) (h : Phase d₀ f s w) (hopen : s.loaderIsOpen = true) :
    Phase d₀ f s.closeLoader.1 w := by
  have hnothing : ¬ s.HasLoaded → Phase d₀ f s.closeLoader.1 w := by
    intro hnone
    rw [hs.closeLoader_eq_of_not_hasLoaded hnone]
    exact h.congr rfl (fun _ => Iff.rfl) fun hloaded => absurd hloaded hnone
  cases h with
  | ahead hnone => exact hnothing hnone
  | fetched _ hnone => exact hnothing hnone
  | gone hnot =>
      exact hnothing fun hloaded => hnot (isOwned_over_iff.mpr ⟨hloaded, .inl hopen⟩)
  | inUse hresult hmem hdirectory hin hdisk =>
      rcases Nat.eq_zero_or_pos s.references with hzero | hpos
      · obtain ⟨disk, hframe⟩ := closeLoader_eq s
        refine .gone ?_ ?_
        · rw [hframe, isOwned_over_iff]
          rintro ⟨-, hin | hin⟩
          · cases hin
          · exact absurd hin (Nat.not_lt.mpr (Nat.le_of_eq hzero))
        · rw [hs.closeLoader_disk hmem hdirectory hzero, hdisk, Fetched.leftover_of_ok hresult]
      · obtain ⟨d', hd'⟩ := hs.exists_dataset hpos
        rw [closeLoader_of_referenced hd' hpos]
        exact .inUse hresult hmem hdirectory (.inr hpos) hdisk

/-- What one step of anybody does to the disk. -/
theorem Acts.phase (h : Acts (s, w) (t, w')) (hs : s.Sound)
    (hphase : Phase d₀ (s.source.fetch d₀) s w) : Phase d₀ (s.source.fetch d₀) t w' := by
  cases h with
  | loading event hopen hgoes =>
      refine hphase.congr rfl (fun d => mem_loads_apply hgoes) fun _ => ?_
      exact iff_of_true (.inl hopen) (.inl hopen)
  | fetches hstarted hok =>
      cases hphase with
      | ahead hnone hdisk =>
          rw [hdisk] at hok ⊢
          exact .fetched hok hnone rfl
  | fetchFails hstarted herror =>
      cases hphase with
      | ahead hnone hdisk =>
          rw [hdisk] at herror ⊢
          exact .gone (not_isOwned_of_not_hasLoaded hnone) (Fetched.leftover_of_error herror).symm
  | @opens _ _ directory d members log hload hok =>
      exact hphase.opened hs hload (directory_of_openAt hok) members log
  | discards directory =>
      cases hphase with
      | fetched hresult hnone hdisk =>
          rw [hdisk]
          exact .gone (not_isOwned_of_not_hasLoaded hnone) (Fetched.leftover_of_ok hresult).symm
  | fails e members log hload => exact hphase.failed hload e members log
  | keeps hd hthere =>
      refine hphase.congr rfl (fun _ => Iff.rfl) fun _ => iff_of_true (hthere.imp_right ?_) hthere
      intro hpos
      have hmore : { s with kept := s.kept + 1 }.references = s.references + 1 :=
        Nat.add_right_comm ..
      omega
  | starts i hopen =>
      refine hphase.congr rfl (fun _ => Iff.rfl) fun _ => ?_
      exact iff_of_true (.inl hopen) (.inl hopen)
  | releases hkept hstarted => exact hphase.released hs hkept hstarted
  | closes hopen => exact hphase.closed hs hopen
  | beside hdisk hsource hloader hopen hkept hstarted =>
      have hreferences := references_congr hkept hstarted (congrArg Shared.callers hloader)
      refine hphase.congr hdisk (fun d => by rw [hloader]) fun _ => ?_
      rw [hopen, hreferences]

/-- What nobody has any more nobody gets back. -/
theorem Acts.isOwned (h : Acts (s, .over) (t, .over)) (ht : t.IsOwned .over) :
    s.IsOwned .over := by
  have hback : (t.HasLoaded → s.HasLoaded) → (t.loaderIsOpen = true ∨ 0 < t.references →
      s.loaderIsOpen = true ∨ 0 < s.references) → s.IsOwned .over := by
    intro hhas hin
    rw [isOwned_over_iff] at ht ⊢
    exact ht.imp hhas hin
  cases h with
  | loading event hopen hgoes =>
      exact hback (fun ⟨d, hd⟩ => ⟨d, (mem_loads_apply hgoes).mp hd⟩) fun _ => .inl hopen
  | @fails _ _ load e members log hload =>
      obtain ⟨hopen, hreferences, -, -⟩ := endLoad_frame ⟨s.disk, members, .error e, log⟩ s load
      refine hback (fun ⟨d, hd⟩ => ⟨d, ?_⟩) fun hin => by rwa [hopen, hreferences] at hin
      rw [endLoad_loader_of_underWay _ hload, mem_loads_set hload] at hd
      exact hd.resolve_right (by simp)
  | keeps hd hin => exact hback id fun _ => hin
  | starts i hopen => exact hback id fun _ => .inl hopen
  | @releases _ _ kept started hkept hstarted =>
      have hle := references_le hkept hstarted
      obtain ⟨disk, heq⟩ := release_eq s kept started
      rw [heq] at hback
      refine hback id (Or.imp_right fun hpos => ?_)
      exact Nat.lt_of_lt_of_le hpos hle
  | closes hopen =>
      obtain ⟨disk, heq⟩ := closeLoader_eq s
      rw [heq] at hback
      exact hback id fun _ => .inl hopen
  | beside hdisk hsource hloader hopen hkept hstarted =>
      have hreferences := references_congr hkept hstarted (congrArg Shared.callers hloader)
      refine hback (fun ⟨d, hd⟩ => ⟨d, hloader ▸ hd⟩) fun hin => ?_
      rwa [hopen, hreferences] at hin

theorem Acts.work_eq (h : Acts (s, .over) (t, w)) : w = .over := by
  cases h <;> rfl

/-! ## Runs -/

theorem Runs.phase {x y : Service × Work} (h : Runs x y) (hs : x.1.Sound)
    (hx : Phase d₀ (x.1.source.fetch d₀) x.1 x.2) :
    y.1.Sound ∧ y.1.source = x.1.source ∧ Phase d₀ (x.1.source.fetch d₀) y.1 y.2 := by
  induction h with
  | refl => exact ⟨hs, rfl, hx⟩
  | tail _ hact ih =>
      obtain ⟨hsound, hsource, hphase⟩ := ih
      rw [← hsource] at hphase ⊢
      exact ⟨hact.sound hsound, hact.source_eq, hact.phase hsound hphase⟩

theorem Runs.not_isOwned {y : Service × Work} (h : Runs (s, .over) y)
    (hs : ¬ s.IsOwned .over) : y.2 = .over ∧ ¬ y.1.IsOwned .over := by
  induction h with
  | refl => exact ⟨rfl, hs⟩
  | @tail y z _ hact ih =>
      obtain ⟨y, w⟩ := y
      obtain ⟨z, w'⟩ := z
      obtain ⟨rfl, hy⟩ := ih
      cases hact.work_eq
      exact ⟨rfl, fun hz => hy (hact.isOwned hz)⟩

theorem phase_of_start (hstart : s.loader = .start) : Phase s.disk f s .ahead := by
  refine .ahead ?_ rfl
  rintro ⟨d, hd⟩
  rw [hstart] at hd
  cases hd

/-- What the load of an unpacked archive leaves at last is what was there
before. -/
theorem get?_leftover {d : Disk} {f : Fetched} (h : Unpacked d f) (q : Route) :
    f.leftover.tree.get? q = d.tree.get? q := by
  cases h with
  | given hresult hpath hholds hwhere =>
      rw [Fetched.leftover_of_ok hresult, Directory.discard, hpath.discard_eq hholds hwhere]
      exact hholds.get?_erase q
  | refused hresult hsame =>
      rw [Fetched.leftover_of_error hresult]
      exact hsame q

theorem useDirectory_disk (path : String) (d : Disk) :
    (useDirectory path d).disk = d ∧ (useDirectory path d).leftover = d := by
  rw [useDirectory]
  split <;> exact ⟨rfl, rfl⟩

/-- Whoever has the dataset, the disk is as the fetch has left it. -/
theorem Phase.disk_of_isOwned (h : Phase d₀ f t w) (howned : t.IsOwned w) :
    ∃ directory, f.result = .ok directory ∧ t.disk = f.disk := by
  cases h with
  | ahead hnone =>
      rcases howned with ⟨_, hw⟩ | ⟨hloaded, -⟩
      · cases hw
      · exact absurd hloaded hnone
  | fetched hresult _ hdisk => exact ⟨_, hresult, hdisk⟩
  | inUse hresult _ _ _ hdisk => exact ⟨_, hresult, hdisk⟩
  | gone hnot => exact absurd howned hnot

theorem Phase.disk_of_not_isOwned (h : Phase d₀ f t .over) (hnot : ¬ t.IsOwned .over) :
    t.disk = f.leftover := by
  cases h with
  | inUse _ hloaded _ hin => exact absurd (isOwned_over_iff.mpr ⟨⟨_, hloaded⟩, hin⟩) hnot
  | gone _ hdisk => exact hdisk

theorem Phase.disk_eq (h : Phase d₀ f t w) (hfetch : f.disk = d₀) (hleft : f.leftover = d₀) :
    t.disk = d₀ := by
  cases h with
  | ahead _ hdisk => exact hdisk
  | fetched _ _ hdisk => exact hdisk.trans hfetch
  | inUse _ _ _ _ hdisk => exact hdisk.trans hfetch
  | gone _ hdisk => exact hdisk.trans hleft

/-- What somebody has is all that was unpacked. -/
theorem Phase.unpacked_of_isOwned (h : Phase d₀ f t w) (hunpacked : Unpacked d₀ f)
    (howned : t.IsOwned w) : ∃ path r, f.result = .ok (.temporary path) ∧
      d₀.IsScratchPath path r ∧ d₀.tree.Holds r f.disk.tree ∧ t.disk = f.disk := by
  obtain ⟨directory, hresult, hdisk⟩ := h.disk_of_isOwned howned
  cases hunpacked with
  | given hgiven hpath hholds _ => exact ⟨_, _, hgiven, hpath, hholds, hdisk⟩
  | refused herror => cases herror.symm.trans hresult

/-- Where nobody has anything, nothing is left of it. -/
theorem Phase.get?_of_not_isOwned (h : Phase d₀ f t w) (hunpacked : Unpacked d₀ f)
    (hnot : ¬ t.IsOwned w) (q : Route) : t.disk.tree.get? q = d₀.tree.get? q := by
  cases h with
  | ahead _ hdisk => rw [hdisk]
  | fetched => exact absurd (.inl ⟨_, rfl⟩) hnot
  | inUse _ hloaded _ hin => exact absurd (isOwned_over_iff.mpr ⟨⟨_, hloaded⟩, hin⟩) hnot
  | gone _ hdisk =>
      rw [hdisk]
      exact get?_leftover hunpacked q

/-- From the fetch of an archive on, its temporary directory is there, with all
that was unpacked into it, exactly as long as somebody has the dataset: the load,
the loader until it is closed, or whoever has kept a reference. When the last of
them is gone, or the load has failed, the disk is as it was before the load, and
stays so. A directory that is a dataset's own source is never touched. -/
theorem temporary_directory_lasts_as_long_as_its_dataset (hstart : s.loader = .start)
    (hkept : s.kept = 0) (ht : Runs (s, .ahead) (t, w)) :
    (s.source.IsArchive → s.disk.tree.IsRooted →
      (w = .ahead → t.disk = s.disk) ∧
      (t.IsOwned w → ∃ path r,
        (s.source.fetch s.disk).result = .ok (.temporary path) ∧
        s.disk.IsScratchPath path r ∧ s.disk.tree.Holds r (s.source.fetch s.disk).disk.tree ∧
        t.disk = (s.source.fetch s.disk).disk) ∧
      (w = .over → ¬ t.IsOwned w →
        (∀ q, t.disk.tree.get? q = s.disk.tree.get? q) ∧
        ∀ u w', Runs (t, w) (u, w') → u.disk = t.disk ∧ ¬ u.IsOwned w')) ∧
    ∀ path, s.source = .directory path → t.disk = s.disk := by
  obtain ⟨hsound, hsource, hphase⟩ :=
    Runs.phase ht (sound_of_start hstart hkept) (phase_of_start hstart)
  dsimp only at hsound hsource hphase
  refine ⟨fun harchive hrooted => ?_, fun path hpath => ?_⟩
  · have hunpacked := harchive.fetch_spec hrooted
    refine ⟨?_, fun howned => ?_, ?_⟩
    · rintro rfl
      cases hphase with
      | ahead _ hdisk => exact hdisk
    · exact hphase.unpacked_of_isOwned hunpacked howned
    · rintro rfl hnot
      have hgone := hphase.disk_of_not_isOwned hnot
      refine ⟨hphase.get?_of_not_isOwned hunpacked hnot, fun u w' hu => ?_⟩
      obtain ⟨hover, hnot'⟩ := Runs.not_isOwned hu hnot
      dsimp only at hover hnot'
      subst hover
      rw [← hsource] at hphase hgone
      obtain ⟨-, -, hphase'⟩ := Runs.phase hu hsound hphase
      exact ⟨(hphase'.disk_of_not_isOwned hnot').trans hgone.symm, hnot'⟩
  · obtain ⟨hsame, hleft⟩ := useDirectory_disk path s.disk
    rw [hpath] at hphase
    exact hphase.disk_eq hsame hleft

/-! ## What a program does -/

theorem IsCalm.isOwned_iff (h : t.IsCalm w) :
    t.IsOwned w ↔ t.HasLoaded ∧ (t.loaderIsOpen = true ∨ 0 < t.references) := by
  refine or_iff_right ?_
  rintro ⟨directory, rfl⟩
  obtain hw | ⟨hw, -⟩ := h
  · cases hw
  · cases hw

/-- Whatever a program has done with a new service over an archive, the
temporary directory is there exactly if a dataset has been loaded and the loader
is open or somebody refers to the dataset. -/
theorem directory_of_performAll (hstart : s.loader = .start) (hkept : s.kept = 0)
    (harchive : s.source.IsArchive) (hrooted : s.disk.tree.IsRooted) (ops : List Operation) :
    let t := s.performAll ops
    let isHad := t.HasLoaded ∧ (t.loaderIsOpen = true ∨ 0 < t.references)
    (isHad → ∃ path r, (s.source.fetch s.disk).result = .ok (.temporary path) ∧
      s.disk.IsScratchPath path r ∧ s.disk.tree.Holds r (s.source.fetch s.disk).disk.tree ∧
      t.disk = (s.source.fetch s.disk).disk) ∧
    (¬ isHad → ∀ q, t.disk.tree.get? q = s.disk.tree.get? q) := by
  intro t isHad
  obtain ⟨w, hruns, hquiet⟩ := runs_performAll hstart hkept ops
  obtain ⟨-, -, hphase⟩ := Runs.phase hruns (sound_of_start hstart hkept) (phase_of_start hstart)
  have hunpacked := harchive.fetch_spec hrooted
  have howned : t.IsOwned w ↔ isHad := hquiet.calm.isOwned_iff
  exact ⟨fun hhad => hphase.unpacked_of_isOwned hunpacked (howned.mpr hhad),
    fun hnot => hphase.get?_of_not_isOwned hunpacked (mt howned.mp hnot)⟩

/-- A load has fetched its directory, and nobody waits for it: the directory is
removed again. -/
theorem runs_unwanted (hstart : s.loader = .start) (hopen : s.loaderIsOpen = true)
    {directory : Directory} (hresult : (s.source.fetch s.disk).result = .ok directory) :
    ∃ t u, Runs (s, .ahead) (t, .holds directory) ∧ Runs (t, .holds directory) (u, .over) ∧
      ¬ u.IsOwned .over := by
  have hcalls : s.loader.run isReady [.call, .step 0, .step 0, .step 0] =
      ⟨none, some 0, [none], [.waiting 0], []⟩ := by
    rw [hstart]
    rfl
  have hwaits : Runs (s, .ahead)
      ({ s with loader := ⟨none, some 0, [none], [.waiting 0], []⟩ }, .ahead) := by
    rw [← hcalls]
    exact runs_run hopen (by simp)
  refine ⟨_, _, hwaits.tail (.fetches (by simp) hresult), .single (.discards directory),
    not_isOwned_of_not_hasLoaded ?_⟩
  rintro ⟨d, hd⟩
  cases List.mem_singleton.mp hd

/-- The small dataset in an archive. A load whose caller goes away leaves
nothing. Otherwise the directory stays after the loader has been closed, as long
as there is a reference to the dataset. -/
theorem temporary_directory_lasts_as_long_as_its_dataset_of_kept_reference :
    let s := onShelf (Tar.pack (Tar.itemsOf smallPlan).reverse) (.archive "/a")
    let names : Route := [bytes "tmp", bytes "hwrsearch-0", bytes "names.txt"]
    let leaves (ops : List Operation) (isOpen : Bool) (references : Nat) (found : Option Node) :=
      ∃ w, Runs (s, .ahead) (s.performAll ops, w) ∧ (s.performAll ops).loaderIsOpen = isOpen ∧
        (s.performAll ops).references = references ∧
        (s.performAll ops).disk.tree.get? names = found
    s.loader = .start ∧ s.kept = 0 ∧ s.source.IsArchive ∧ s.disk.tree.IsRooted ∧
    (∃ t directory u, Runs (s, .ahead) (t, .holds directory) ∧
      t.disk.tree.get? names = some (.file (bytes "a\n")) ∧
      Runs (t, .holds directory) (u, .over) ∧ u.disk.tree.get? names = none) ∧
    leaves [.keep] true 1 (some (.file (bytes "a\n"))) ∧
    leaves [.keep, .shutDown] false 1 (some (.file (bytes "a\n"))) ∧
    leaves [.keep, .shutDown, .dropKept] false 0 none := by
  intro s names leaves
  have hstart : s.loader = .start := rfl
  have hkept : s.kept = 0 := rfl
  have harchive : s.source.IsArchive := .inl ⟨_, rfl⟩
  have hrooted : s.disk.tree.IsRooted :=
    (Tree.isPlan_of_nodes (by decide +kernel)).isRooted
  have hthere : ∀ t w, Runs (s, .ahead) (t, w) → t.IsOwned w →
      t.disk.tree.get? names = some (.file (bytes "a\n")) := by
    intro t w ht howned
    obtain ⟨hruns, -⟩ := temporary_directory_lasts_as_long_as_its_dataset hstart hkept ht
    obtain ⟨path, r, -, -, -, hdisk⟩ := (hruns harchive hrooted).2.1 howned
    rw [hdisk]
    decide +kernel
  have hgone : ∀ t w, Runs (s, .ahead) (t, w) → w = .ahead ∨ w = .over → ¬ t.IsOwned w →
      t.disk.tree.get? names = none := by
    intro t w ht hw hnot
    have hnothing : s.disk.tree.get? names = none := by decide +kernel
    obtain ⟨hruns, -⟩ := temporary_directory_lasts_as_long_as_its_dataset hstart hkept ht
    obtain ⟨hahead, -, hover⟩ := hruns harchive hrooted
    rcases hw with hw | hw
    · rw [hahead hw]
      exact hnothing
    · exact ((hover hw hnot).1 names).trans hnothing
  have hhad : ∀ ops isOpen references, (s.performAll ops).dataset?.isSome = true →
      (s.performAll ops).loaderIsOpen = isOpen → (s.performAll ops).references = references →
      isOpen = true ∨ 0 < references →
      leaves ops isOpen references (some (.file (bytes "a\n"))) := by
    rintro ops _ _ hsome rfl rfl hin
    obtain ⟨w, hruns, hquiet⟩ := runs_performAll hstart hkept ops
    obtain ⟨d, hd⟩ := Option.isSome_iff_exists.mp hsome
    have howned := hquiet.calm.isOwned_iff.mpr ⟨⟨d, hquiet.sound.hasLoaded hd⟩, hin⟩
    exact ⟨w, hruns, rfl, rfl, hthere _ w hruns howned⟩
  have hnotHad : ∀ ops, (s.performAll ops).loaderIsOpen = false →
      (s.performAll ops).references = 0 → leaves ops false 0 none := by
    intro ops hclosed hzero
    obtain ⟨w, hruns, hquiet⟩ := runs_performAll hstart hkept ops
    have hnot : ¬ (s.performAll ops).IsOwned w := by
      rw [hquiet.calm.isOwned_iff, hclosed, hzero]
      simp
    exact ⟨w, hruns, hclosed, hzero, hgone _ w hruns (hquiet.calm.imp_right And.left) hnot⟩
  -- One evaluation for all three states.
  obtain ⟨⟨hsome, hopen, hone⟩, ⟨hsome', hclosed, hone'⟩, hclosed', hzero⟩ :
      ((s.performAll [.keep]).dataset?.isSome = true ∧
        (s.performAll [.keep]).loaderIsOpen = true ∧ (s.performAll [.keep]).references = 1) ∧
      ((s.performAll [.keep, .shutDown]).dataset?.isSome = true ∧
        (s.performAll [.keep, .shutDown]).loaderIsOpen = false ∧
        (s.performAll [.keep, .shutDown]).references = 1) ∧
      (s.performAll [.keep, .shutDown, .dropKept]).loaderIsOpen = false ∧
      (s.performAll [.keep, .shutDown, .dropKept]).references = 0 := by decide +kernel
  refine ⟨hstart, hkept, harchive, hrooted, ?_, hhad _ _ _ hsome hopen hone (.inl rfl),
    hhad _ _ _ hsome' hclosed hone' (.inr Nat.one_pos), hnotHad _ hclosed' hzero⟩
  have hfetched : (s.source.fetch s.disk).result.toBool = true := by decide +kernel
  cases hresult : (s.source.fetch s.disk).result with
  | error e =>
      rw [hresult] at hfetched
      cases hfetched
  | ok directory =>
      obtain ⟨t, u, hholds, hlost, hnot⟩ := runs_unwanted hstart rfl hresult
      exact ⟨t, directory, u, hholds, hthere t _ hholds (.inl ⟨directory, rfl⟩), hlost,
        hgone u _ (hholds.trans hlost) (.inr rfl) hnot⟩

end Service
end GlyphSearch
