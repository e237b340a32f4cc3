import GlyphSearch.Proofs.Settling

/-!
# Who has the dataset

A load does its work on files on its own: it fetches a directory and opens the
dataset in it, or removes it again if nobody waits for it any more. What it has
opened is the loader's, and whoever gets the dataset may keep a reference to it,
also after the loader has been closed. `Acts` is one step of any of these, and
they follow each other in any order.

`Sound` is what such steps keep of the loader: references are to a dataset that
has been published, and what has been published is what the only load has come
to.
-/

namespace GlyphSearch

open Dataset Files Loading

/-- How far a load is with its work on files. -/
inductive Service.Work where
  | ahead
  /-- The directory is there, and the dataset has not been opened. -/
  | holds (directory : Directory)
  | over

namespace Service

/-- One step of anybody who has to do with the dataset. A load may fail at any
time, and its work on files then goes on without it. -/
inductive Acts : Service × Work → Service × Work → Prop
  /-- A caller takes a step or is cancelled, or somebody asks for the stage. -/
  | loading {s : Service} {w : Work} (event : Event Outcome) (hopen : s.loaderIsOpen = true)
      (hgoes : ∀ load o, event ≠ .finish load o) :
      Acts (s, w) ({ s with loader := s.loader.apply isReady event }, w)
  | fetches {s : Service} {directory : Directory} (hstarted : s.loader.loads ≠ [])
      (hok : (s.source.fetch s.disk).result = .ok directory) :
      Acts (s, .ahead) ({ s with disk := (s.source.fetch s.disk).disk }, .holds directory)
  | fetchFails {s : Service} {e : Error} (hstarted : s.loader.loads ≠ [])
      (herror : (s.source.fetch s.disk).result = .error e) :
      Acts (s, .ahead) ({ s with disk := (s.source.fetch s.disk).disk }, .over)
  | opens {s : Service} {load : Nat} {directory : Directory} {d : Dataset} (members : Nat)
      (log : List Log.Entry) (hload : s.loader.loads[load]? = some none)
      (hok : openAt s.disk.tree s.disk.workingDirectory directory s.layout = .ok d) :
      Acts (s, .holds directory) (endLoad (conclude ⟨s.disk, members, .ok d, log⟩) s load, .over)
  /-- The dataset cannot be opened, or nobody waits for it any more. -/
  | discards {s : Service} (directory : Directory) :
      Acts (s, .holds directory) ({ s with disk := directory.discard s.disk }, .over)
  /-- The load has failed, or takes too long. -/
  | fails {s : Service} {w : Work} {load : Nat} (e : Error) (members : Nat)
      (log : List Log.Entry) (hload : s.loader.loads[load]? = some none) :
      Acts (s, w) (endLoad (conclude ⟨s.disk, members, .error e, log⟩) s load, w)
  /-- A reference is taken from the loader or from another reference. -/
  | keeps {s : Service} {w : Work} {d : Dataset} (hd : s.dataset? = some d)
      (hthere : s.loaderIsOpen = true ∨ 0 < s.references) :
      Acts (s, w) ({ s with kept := s.kept + 1 }, w)
  | starts {s : Service} {w : Work} (i : Nat) (hopen : s.loaderIsOpen = true) :
      Acts (s, w) ({ s with started := s.started ++ [i] }, w)
  | releases {s : Service} {w : Work} {kept : Nat} {started : List Nat} (hkept : kept ≤ s.kept)
      (hstarted : started.Sublist s.started) : Acts (s, w) (s.release kept started, w)
  | closes {s : Service} {w : Work} (hopen : s.loaderIsOpen = true) :
      Acts (s, w) (s.closeLoader.1, w)
  | beside {s t : Service} {w : Work} (hdisk : t.disk = s.disk) (hsource : t.source = s.source)
      (hloader : t.loader = s.loader) (hopen : t.loaderIsOpen = s.loaderIsOpen)
      (hkept : t.kept = s.kept) (hstarted : t.started = s.started) : Acts (s, w) (t, w)

abbrev Runs : Service × Work → Service × Work → Prop := Relation.ReflTransGen Acts

/-- A load has come to a dataset. -/
def HasLoaded (s : Service) : Prop := ∃ d, some (.ok d) ∈ s.loader.loads

/-- Somebody has the dataset: the load that is about to open it, the loader, or
whoever refers to it. -/
def IsOwned (s : Service) (w : Work) : Prop :=
  (∃ directory, w = .holds directory) ∨
    s.HasLoaded ∧ (s.loaderIsOpen = true ∨ 0 < s.references)

/-! ## What steps do to loads and references -/

variable {s t : Service} {w w' : Work} {o : Outcome}

theorem closeDataset_eq (s : Service) (d : Dataset) :
    ∃ disk, (s.closeDataset d).1 = { s with disk } := by
  rw [closeDataset]
  split <;> exact ⟨_, rfl⟩

/-- Apart from the references, only the disk may change when some are let
go. -/
theorem release_eq (s : Service) (kept : Nat) (started : List Nat) :
    ∃ disk, s.release kept started = { s with kept, started, disk } := by
  rw [release]
  dsimp only
  split
  · exact closeDataset_eq _ _
  · exact ⟨_, rfl⟩

theorem release_loader (s : Service) (kept : Nat) (started : List Nat) :
    (s.release kept started).loader = s.loader := by
  obtain ⟨disk, heq⟩ := release_eq s kept started
  rw [heq]

theorem references_congr (hkept : t.kept = s.kept) (hstarted : t.started = s.started)
    (hcallers : t.loader.callers = s.loader.callers) : t.references = s.references := by
  have houtcome : ∀ i, t.loader.outcomeOf? i = s.loader.outcomeOf? i := by
    intro i
    rw [Shared.outcomeOf?, hcallers, Shared.outcomeOf?]
  simp only [references, hkept, hstarted, houtcome]

theorem references_le {kept : Nat} {started : List Nat} (hkept : kept ≤ s.kept)
    (hstarted : started.Sublist s.started) :
    { s with kept, started }.references ≤ s.references :=
  Nat.add_le_add hkept (hstarted.filter _).length_le

/-- Of all steps of the loader, only the end of a load gives a dataset. -/
theorem mem_loads_apply {event : Event Outcome} (hgoes : ∀ load o, event ≠ .finish load o) :
    some o ∈ (s.loader.apply isReady event).loads ↔ some o ∈ s.loader.loads := by
  have hstep := Shared.step_apply isReady s.loader event
  generalize s.loader.apply isReady event = loader at hstep ⊢
  cases hstep with
  | move _ hmove =>
      rw [Shared.place]
      cases hmove with
      | start hnone => simp
      | findAtOnce | enter | findLocked | lock | join | hear | publish | clear => exact Iff.rfl
  | finish => exact absurd rfl (hgoes _ _)
  | idle | call | cancel | observe | glance => exact Iff.rfl

theorem mem_loads_set {load : Nat} (hload : s.loader.loads[load]? = some none) {o' : Outcome} :
    some o' ∈ s.loader.loads.set load (some o) ↔ some o' ∈ s.loader.loads ∨ o' = o := by
  constructor
  · intro h
    rcases List.mem_or_eq_of_mem_set h with h | h
    · exact .inl h
    · exact .inr (Option.some.inj h)
  · rintro (h | rfl)
    · obtain ⟨k, hk⟩ := List.mem_iff_getElem?.mp h
      have hne : load ≠ k := by
        rintro rfl
        cases hload.symm.trans hk
      exact List.mem_iff_getElem?.mpr ⟨k, by rw [List.getElem?_set_ne hne, hk]⟩
    · exact List.mem_set (List.getElem?_eq_some_iff.mp hload).1 _

theorem directory_of_openAt {tree : Tree} {workingDirectory : Route} {directory : Directory}
    {layout : Layout} {d : Dataset} (h : openAt tree workingDirectory directory layout = .ok d) :
    d.directory = some directory := by
  obtain ⟨index, -, h⟩ := bind_eq_ok.mp h
  obtain ⟨content, -, h⟩ := bind_eq_ok.mp h
  obtain ⟨labels, -, h⟩ := bind_eq_ok.mp h
  obtain ⟨metadata, -, h⟩ := bind_eq_ok.mp h
  obtain ⟨made, -, h⟩ := bind_eq_ok.mp h
  obtain ⟨joined, -, h⟩ := bind_eq_ok.mp h
  cases h
  rfl

/-- What is kept of a run by the loader alone: its cells agree with each other,
what has been published is what the load has come to, and references are to a
dataset. -/
structure Sound (s : Service) : Prop where
  one : s.loader.OneLoad
  known : s.loader.Known
  loaded : ∀ o, s.loader.published = some o → some o ∈ s.loader.loads
  kept : 0 < s.kept → ∃ d, s.dataset? = some d

theorem dataset?_eq_some {d : Dataset} :
    s.dataset? = some d ↔ s.loader.published = some (.ok d) := by
  rw [dataset?]
  cases hpublished : s.loader.published with
  | none => simp
  | some o => cases o <;> simp [Except.toOption]

theorem Sound.hasLoaded (h : s.Sound) {d : Dataset} (hd : s.dataset? = some d) :
    some (.ok d) ∈ s.loader.loads := h.loaded _ (dataset?_eq_some.mp hd)

/-- Who refers to the dataset has got it from the loader. -/
theorem Sound.exists_dataset (h : s.Sound) (hpos : 0 < s.references) :
    ∃ d, s.dataset? = some d := by
  by_cases hkept : 0 < s.kept
  · exact h.kept hkept
  · have hback : 0 < (s.started.filter fun i => (s.loader.outcomeOf? i).any isReady).length := by
      rw [references] at hpos
      omega
    obtain ⟨i, hi⟩ := List.exists_mem_of_length_pos hback
    have hready := (List.mem_filter.mp hi).2
    cases ho : s.loader.outcomeOf? i with
    | none =>
        rw [ho] at hready
        cases hready
    | some o =>
        rw [ho] at hready
        have hpublished := h.one.fits _ (List.mem_of_getElem? (Shared.outcomeOf?_eq_some.mp ho))
        cases o with
        | error e => cases hready
        | ok d => exact ⟨d, dataset?_eq_some.mpr hpublished⟩

theorem Sound.references_eq_zero (h : s.Sound) (hnone : ¬ s.HasLoaded) : s.references = 0 := by
  by_contra hpos
  obtain ⟨d, hd⟩ := h.exists_dataset (Nat.pos_of_ne_zero hpos)
  exact hnone ⟨d, h.hasLoaded hd⟩

/-- There is no second dataset beside the one that has been loaded. -/
theorem Sound.eq_of_mem (h : s.Sound) {d d' : Dataset} (hd : some (.ok d) ∈ s.loader.loads)
    (hd' : some (.ok d') ∈ s.loader.loads) : d = d' := by
  have heq := h.one.eq_of_mem hd hd'
  cases heq
  rfl

theorem Sound.congr (h : s.Sound) (hloader : t.loader = s.loader) (hkept : t.kept ≤ s.kept) :
    t.Sound := by
  have hdataset : t.dataset? = s.dataset? := by rw [dataset?, hloader, dataset?]
  refine ⟨?_, ?_, ?_, fun hpos => ?_⟩
  · rw [hloader]
    exact h.one
  · rw [hloader]
    exact h.known
  · rw [hloader]
    exact h.loaded
  · rw [hdataset]
    exact h.kept (Nat.lt_of_lt_of_le hpos hkept)

/-- What a caller publishes it has heard from the load. -/
theorem mem_loads_of_published {loader u : Shared Outcome} {c c' : Caller Outcome}
    (h : Shared.Move loader c u c') (hfits : loader.Fits c)
    (hloaded : ∀ o, loader.published = some o → some o ∈ loader.loads) :
    ∀ o, u.published = some o → some o ∈ u.loads := by
  intro o ho
  cases h with
  | @publish heard =>
      cases hpublished : loader.published with
      | none =>
          rw [hpublished] at ho
          cases ho
          exact hfits
      | some o' =>
          rw [hpublished] at ho
          cases ho
          exact hloaded _ hpublished
  | start hnone => exact List.mem_append_left _ (hloaded o ho)
  | findAtOnce | enter | findLocked | lock | join | hear | clear => exact hloaded o ho

theorem Sound.apply (h : s.Sound) {event : Event Outcome}
    (hgoes : ∀ load o, event ≠ .finish load o) :
    Sound { s with loader := s.loader.apply isReady event } := by
  have hlater := Shared.later_apply isReady s.loader event
  refine ⟨h.one.apply isReady event, h.known.apply isReady event, ?_, fun hpos => ?_⟩
  · show ∀ o, (s.loader.apply isReady event).published = some o →
      some o ∈ (s.loader.apply isReady event).loads
    have hstep := Shared.step_apply isReady s.loader event
    generalize s.loader.apply isReady event = loader at hstep ⊢
    cases hstep with
    | @move i c u c' hc hmove =>
        show ∀ o, u.published = some o → some o ∈ u.loads
        exact mem_loads_of_published hmove (h.one.fits c (List.mem_of_getElem? hc)) h.loaded
    | finish => exact absurd rfl (hgoes _ _)
    | idle | call | cancel | observe | glance => exact h.loaded
  · obtain ⟨d, hd⟩ := h.kept hpos
    exact ⟨d, dataset?_eq_some.mpr (hlater.published _ (dataset?_eq_some.mp hd))⟩

/-- The end of a load leaves references and the loader's door as they are. -/
theorem endLoad_frame (loaded : Loaded) (s : Service) (load : Nat) :
    (endLoad (conclude loaded) s load).loaderIsOpen = s.loaderIsOpen ∧
      (endLoad (conclude loaded) s load).references = s.references ∧
      (endLoad (conclude loaded) s load).kept = s.kept ∧
      (endLoad (conclude loaded) s load).source = s.source := by
  obtain ⟨disk, counters, log, heq⟩ := endLoad_eq loaded s load
  rw [heq]
  refine ⟨rfl, references_congr rfl rfl ?_, rfl, rfl⟩
  obtain hsame | ⟨-, hsame⟩ := Shared.finishLoad_cases s.loader load loaded.result
  · rw [hsame]
  · rw [hsame]

theorem Sound.endLoad (h : s.Sound) {load : Nat} (hload : s.loader.loads[load]? = some none)
    (loaded : Loaded) : (endLoad (conclude loaded) s load).Sound := by
  have hloader := endLoad_loader_of_underWay loaded hload
  obtain ⟨-, -, hkept, -⟩ := endLoad_frame loaded s load
  refine ⟨?_, ?_, fun o ho => ?_, fun hpos => ?_⟩
  · rw [hloader]
    exact h.one.finish hload loaded.result
  · rw [endLoad_loader]
    exact h.known.finishLoad load loaded.result
  · rw [hloader] at ho ⊢
    exact (mem_loads_set hload).mpr (.inl (h.loaded o ho))
  · rw [hkept] at hpos
    obtain ⟨d, hd⟩ := h.kept hpos
    refine ⟨d, dataset?_eq_some.mpr ?_⟩
    rw [hloader]
    exact dataset?_eq_some.mp hd

/-- Apart from the door, closing the loader changes at most the disk. -/
theorem closeLoader_eq (s : Service) :
    ∃ disk, s.closeLoader.1 = { s with loaderIsOpen := false, disk } := by
  rw [closeLoader]
  dsimp only
  split
  · exact closeDataset_eq _ _
  · exact ⟨_, rfl⟩
  · dsimp only
    cases s.loader.unheard? with
    | none => exact ⟨_, rfl⟩
    | some o => exact discardOutcome_eq _ o

theorem closeLoader_loader (s : Service) : s.closeLoader.1.loader = s.loader := by
  obtain ⟨disk, heq⟩ := closeLoader_eq s
  rw [heq]

theorem Acts.sound (h : Acts (s, w) (t, w')) (hs : s.Sound) : t.Sound := by
  cases h with
  | loading event hopen hgoes => exact hs.apply hgoes
  | fetches | fetchFails | discards | starts => exact hs.congr rfl (Nat.le_refl _)
  | opens members log hload hok => exact hs.endLoad hload _
  | fails e members log hload => exact hs.endLoad hload _
  | keeps hd hthere => exact ⟨hs.one, hs.known, hs.loaded, fun _ => ⟨_, hd⟩⟩
  | @releases _ _ kept started hkept hstarted =>
      obtain ⟨disk, heq⟩ := release_eq s kept started
      rw [heq]
      exact hs.congr rfl hkept
  | closes hopen =>
      obtain ⟨disk, heq⟩ := closeLoader_eq s
      rw [heq]
      exact hs.congr rfl (Nat.le_refl _)
  | beside hdisk hsource hloader hopen hkept hstarted =>
      exact hs.congr hloader (Nat.le_of_eq hkept)

theorem Acts.source_eq (h : Acts (s, w) (t, w')) : t.source = s.source := by
  cases h with
  | opens members log hload hok => exact (endLoad_frame _ _ _).2.2.2
  | fails e members log hload => exact (endLoad_frame _ _ _).2.2.2
  | @releases _ _ kept started hkept hstarted =>
      obtain ⟨disk, heq⟩ := release_eq s kept started
      rw [heq]
  | closes hopen =>
      obtain ⟨disk, heq⟩ := closeLoader_eq s
      rw [heq]
  | beside hdisk hsource hloader hopen hkept hstarted => exact hsource
  | loading | fetches | fetchFails | discards | keeps | starts => rfl

theorem sound_of_start (hstart : s.loader = .start) (hkept : s.kept = 0) : s.Sound := by
  have hfresh : s.loader.Fresh := .inl hstart
  refine ⟨hfresh.oneLoad, hfresh.known, fun o ho => ?_, fun hpos => ?_⟩
  · rw [hstart] at ho
    cases ho
  · omega

end Service
end GlyphSearch
