import GlyphSearch.Proofs.Ownership
import GlyphSearch.Proofs.Requests
import GlyphSearch.Proofs.Visibility

/-!
# The operations of a service

A program has its service answer requests, gets the dataset and may keep a
reference to it, starts callers in the background, waits for them or cancels
them, and closes the loader at last. `Operation` lists all that it can do.

Each operation is a row of steps that nothing comes between: of `Moves`, as far
as the loader is concerned, and of `Acts`, as far as the dataset is. The former
is so wherever an operation begins. For the latter, nobody may be on the way,
and no work on files half done. `Quiet` says that, and an operation leaves a
service quiet if it has found it so. What is proved of all runs of steps is
thus true of whatever a program does.
-/

namespace GlyphSearch.Loading

theorem Caller.IsGone.blocked {ω : Type} {c : Caller ω} (h : c.IsGone) (s : Shared ω) :
    s.Blocked c := by
  obtain rfl | ⟨o, rfl⟩ := h
  · trivial
  · trivial

namespace Shared

variable {ω : Type} {s : Shared ω} {c : Caller ω} {i : Nat}

/-! ## Callers that are all gone -/

def AllGone (s : Shared ω) : Prop := ∀ c ∈ s.callers, c.IsGone

theorem AllGone.stepCaller_eq (h : s.AllGone) (i : Nat) : s.stepCaller i = s := by
  cases hc : s.callers[i]? with
  | none => rw [stepCaller, hc]
  | some c => exact ((h c (List.mem_of_getElem? hc)).blocked s).stepCaller_eq hc

theorem AllGone.settle_eq (h : s.AllGone) : s.settle = s := by
  have hcaller : ∀ i, s.settleCaller i = s := fun i =>
    settleCaller_induction (P := (· = s)) (fun t ht => ht ▸ h.stepCaller_eq i) rfl
  exact List.foldl_fixed' hcaller _

theorem AllGone.cancelCaller_eq (h : s.AllGone) (i : Nat) : s.cancelCaller i = s := by
  obtain heq | ⟨load, hc, -⟩ := cancelCaller_cases s i
  · exact heq
  · obtain hcancelled | ⟨o, hreturned⟩ := h _ (List.mem_of_getElem? hc)
    · cases hcancelled
    · cases hreturned

theorem AtRest.allGone (h : s.AtRest) (hnobody : ∀ load, .waiting load ∉ s.callers) :
    s.AllGone := by
  intro c hc
  have hrest := h c hc
  cases c with
  | waiting load => exact absurd hc (hnobody load)
  | returned o => exact .inr ⟨o, rfl⟩
  | cancelled => exact .inl rfl
  | arriving | entering | joining | publishing o | clearing o => exact hrest.elim

/-- What each step of a caller keeps is kept when all of them go on. -/
theorem settle_induction {P : Shared ω → Prop} (hstep : ∀ i t, P t → P (t.stepCaller i))
    (h : P s) : P s.settle := by
  have hall : ∀ (order : List Nat) t, P t → P (order.foldl settleCaller t) := by
    intro order
    induction order with
    | nil => exact fun t ht => ht
    | cons i order ih => exact fun t ht => ih _ (settleCaller_induction (hstep i) ht)
  exact hall _ s h

theorem getElem?_settle_of_cancelled (hc : s.callers[i]? = some .cancelled) :
    s.settle.callers[i]? = some .cancelled := by
  refine settle_induction (P := fun t => t.callers[i]? = some .cancelled) (fun j t ht => ?_) hc
  by_cases hij : i = j
  · subst hij
    have hblocked : t.Blocked .cancelled := trivial
    rw [hblocked.stepCaller_eq ht]
    exact ht
  · rw [getElem?_stepCaller_of_ne hij]
    exact ht

theorem length_callers_settle (s : Shared ω) : s.settle.callers.length = s.callers.length :=
  settle_induction (P := fun t => t.callers.length = s.callers.length)
    (fun i t ht => (length_callers_stepCaller t i).trans ht) rfl

/-- With no load under way, nobody waits any more when all callers have gone
on. -/
theorem allGone_settle (hrest : s.AtRest) (hone : s.OneLoad) (hknown : s.Known)
    (hended : none ∉ s.loads) : s.settle.AllGone := by
  cases hloads : s.loads with
  | nil =>
      have hgone : s.AllGone := hrest.allGone fun load hmem => by
        have hlt := hknown.waiting load hmem
        rw [hloads] at hlt
        exact absurd hlt (Nat.not_lt_zero load)
      rwa [hgone.settle_eq]
  | cons outcome others =>
      cases outcome with
      | none => exact absurd (hloads ▸ List.mem_cons_self) hended
      | some o =>
          obtain ⟨-, hback⟩ := settle_spec hrest hone hknown (hloads ▸ List.mem_cons_self)
          intro c hc
          obtain ⟨i, hlt, rfl⟩ := List.mem_iff_getElem.mp hc
          have hi := List.getElem?_eq_getElem hlt
          rw [length_callers_settle] at hlt
          by_cases hcancelled : s.callers[i] = .cancelled
          · have hkept := getElem?_settle_of_cancelled
              ((List.getElem?_eq_getElem hlt).trans (congrArg some hcancelled))
            exact .inl (Option.some.inj (hi.symm.trans hkept))
          · obtain ⟨o', ho'⟩ := hback i _ (List.getElem?_eq_getElem hlt) hcancelled
            exact .inr ⟨o', Option.some.inj (hi.symm.trans (outcomeOf?_eq_some.mp ho'))⟩

theorem foldl_cancelCaller_eq_run (isReady : ω → Bool) (order : List Nat) (s : Shared ω) :
    order.foldl cancelCaller s = s.run isReady (order.map .cancel) := by
  rw [Shared.run, List.foldl_map]
  rfl

/-- Whoever is not cancelled is left as it is. -/
theorem getElem?_foldl_cancelCaller {order : List Nat}
    (hc : (order.foldl cancelCaller s).callers[i]? = some c) :
    c = .cancelled ∨ s.callers[i]? = some c := by
  induction order generalizing s with
  | nil => exact .inr hc
  | cons j order ih =>
      rcases ih hc with hcancelled | hc
      · exact .inl hcancelled
      obtain heq | ⟨load, -, heq⟩ := cancelCaller_cases s j
      · exact .inr (heq ▸ hc)
      · rw [heq, place, List.getElem?_set] at hc
        split at hc
        · split at hc
          · exact .inl (Option.some.inj hc).symm
          · cases hc
        · exact .inr hc

end Shared
end GlyphSearch.Loading

namespace GlyphSearch.Service

open Dataset Files Loading

variable {s t u : Service} {w : Work}

/-! ## Rows of steps -/

theorem reaches_warmUp (s : Service) : Reaches s s.warmUp :=
  (reaches_callLoader s).tail (.beside rfl rfl rfl)

theorem reaches_idle (s : Service) : Reaches s s.idle := by
  rw [idle]
  split
  · exact .refl
  · exact reaches_endLoads (fun s => ⟨_, rfl⟩) s

theorem reaches_letGo (s : Service) : Reaches s s.letGo := by
  have hmove : Moves s { s with heldBack := false } := .beside rfl rfl rfl
  exact .head hmove (reaches_idle _)

theorem reaches_cancelStarted (s : Service) : Reaches s s.cancelStarted.1 := by
  rw [cancelStarted, Shared.foldl_cancelCaller_eq_run isReady]
  exact reaches_run s _

theorem moves_release (s : Service) (kept : Nat) (started : List Nat) :
    Moves s (s.release kept started) := by
  obtain ⟨disk, heq⟩ := release_eq s kept started
  rw [heq]
  exact .beside rfl rfl rfl

theorem reaches_join (s : Service) : Reaches s s.join.1 := by
  rw [join]
  dsimp only
  split
  · exact (reaches_await s).tail (moves_release _ _ _)
  · exact .single (moves_release _ _ _)

theorem Runs.sound {x y : Service × Work} (h : Runs x y) (hs : x.1.Sound) : y.1.Sound := by
  induction h with
  | refl => exact hs
  | tail _ hact ih => exact hact.sound ih

theorem runs_run (hopen : s.loaderIsOpen = true) {events : List (Event Outcome)}
    (hgoes : ∀ event ∈ events, ∀ load o, event ≠ .finish load o) :
    Runs (s, w) ({ s with loader := s.loader.run isReady events }, w) := by
  induction events generalizing s with
  | nil => exact .refl
  | cons event events ih =>
      exact .head (.loading event hopen (hgoes event List.mem_cons_self))
        (ih (s := { s with loader := s.loader.apply isReady event }) hopen fun event hmem =>
          hgoes event (List.mem_cons_of_mem _ hmem))

theorem runs_callLoader (hopen : s.loaderIsOpen = true) : Runs (s, w) (s.callLoader.1, w) := by
  have hgoes : ∀ event ∈ (.call : Event Outcome) ::
      List.replicate 6 (.step s.loader.callers.length), ∀ load o, event ≠ .finish load o := by
    intro event hmem load o
    rcases List.mem_cons.mp hmem with rfl | hmem
    · simp
    · rw [List.eq_of_mem_replicate hmem]
      simp
  exact runs_run hopen hgoes

/-- Callers go on by themselves while there is a loader; without one, they are
gone. -/
theorem runs_settle (hgo : s.loaderIsOpen = true ∨ s.loader.AllGone) :
    Runs (s, w) ({ s with loader := s.loader.settle }, w) := by
  rcases hgo with hopen | hgone
  · rw [Shared.settle_eq_run isReady]
    refine runs_run hopen fun event hmem load o => ?_
    obtain ⟨i, -, hi⟩ := List.mem_flatMap.mp hmem
    rw [List.eq_of_mem_replicate hi]
    simp
  · rw [hgone.settle_eq]

theorem runs_cancelStarted (hgo : s.loaderIsOpen = true ∨ s.loader.AllGone) :
    Runs (s, w) (s.cancelStarted.1, w) := by
  rcases hgo with hopen | hgone
  · rw [cancelStarted, Shared.foldl_cancelCaller_eq_run isReady]
    refine runs_run hopen fun event hmem load o => ?_
    obtain ⟨i, -, rfl⟩ := List.mem_map.mp hmem
    simp
  · rw [cancelStarted, List.foldl_fixed' hgone.cancelCaller_eq]

/-- A load fetches the directory first, and then opens the dataset in it or
removes it again. -/
theorem runs_load {load : Nat} (hload : s.loader.loads[load]? = some none) :
    Runs (s, .ahead) (endLoad (conclude (Dataset.load s.source s.layout s.disk)) s load, .over) := by
  have hstarted : s.loader.loads ≠ [] := List.ne_nil_of_mem (List.mem_of_getElem? hload)
  rw [Dataset.load]
  dsimp only
  cases hresult : (s.source.fetch s.disk).result with
  | error e =>
      have hfetch : Acts (s, .ahead) ({ s with disk := (s.source.fetch s.disk).disk }, .over) :=
        .fetchFails hstarted hresult
      exact .head hfetch (.single (.fails e _ _ hload))
  | ok directory =>
      have hfetch : Acts (s, .ahead)
          ({ s with disk := (s.source.fetch s.disk).disk }, .holds directory) :=
        .fetches hstarted hresult
      refine .head hfetch ?_
      dsimp only
      have hfails : ∀ e log, Runs
          ({ s with disk := (s.source.fetch s.disk).disk }, .holds directory)
          (endLoad (conclude ⟨directory.discard (s.source.fetch s.disk).disk,
            (s.source.fetch s.disk).members, .error e, log⟩) s load, .over) :=
        fun e log => .head (.discards directory) (.single (.fails e _ log hload))
      split
      · exact hfails _ _
      · next index hindex =>
          split
          · next d hd =>
              refine .single (.opens _ _ hload ?_)
              exact bind_eq_ok.mpr ⟨index, hindex, hd⟩
          · exact hfails _ _

/-- No work on files is under way: none has been done yet, or the only load has
ended. -/
def IsCalm (s : Service) (w : Work) : Prop :=
  w = .ahead ∨ w = .over ∧ ∃ o, some o ∈ s.loader.loads

theorem IsCalm.later (h : s.IsCalm w) (hlater : Shared.Later s.loader t.loader) : t.IsCalm w :=
  h.imp_right fun ⟨hw, o, ho⟩ => ⟨hw, o, hlater.outcomes o ho⟩

theorem IsCalm.congr (h : s.IsCalm w) (hloader : t.loader = s.loader) : t.IsCalm w :=
  h.later (hloader ▸ .refl _)

theorem IsCalm.work_eq (h : s.IsCalm w) (hloads : s.loader.loads = [none]) : w = .ahead := by
  refine h.resolve_right ?_
  rintro ⟨-, o, ho⟩
  rw [hloads] at ho
  simp at ho

/-- A load that is under way ends first, whichever way it does. Then callers go
on. -/
theorem exists_ended (hs : s.Sound) (hcalm : s.IsCalm w) {finish : Service → Service × Outcome}
    (hfinish : finish = giveUp ∨ finish = work) :
    ∃ t w', Runs (s, w) (t, w') ∧ t.IsCalm w' ∧ t.loader.callers = s.loader.callers ∧
      t.loaderIsOpen = s.loaderIsOpen ∧ none ∉ t.loader.loads ∧
      s.endLoads finish = { t with loader := t.loader.settle } := by
  by_cases hmem : none ∈ s.loader.loads
  · have hloads : s.loader.loads = [none] := by
      obtain ⟨only, hlist⟩ := List.length_eq_one_iff.mp
        (Nat.le_antisymm hs.one.length_le (List.length_pos_of_mem hmem))
      rw [hlist, List.mem_singleton] at hmem
      rw [hlist, hmem]
    have hload : s.loader.loads[0]? = some none := by
      rw [hloads]
      rfl
    obtain rfl := hcalm.work_eq hloads
    have hends : ∃ loaded w', finish s = s.conclude loaded ∧
        Runs (s, .ahead) (endLoad (conclude loaded) s 0, w') ∧ (w' = .ahead ∨ w' = .over) := by
      rcases hfinish with rfl | rfl
      · exact ⟨_, _, rfl, .single (.fails _ _ _ hload), .inl rfl⟩
      · exact ⟨_, _, rfl, runs_load hload, .inr rfl⟩
    obtain ⟨loaded, w', hconcludes, hruns, hw'⟩ := hends
    have hloader := endLoad_loader_of_underWay loaded hload
    rw [hloads] at hloader
    refine ⟨_, w', hruns, hw'.imp_right fun hover => ⟨hover, loaded.result, ?_⟩, ?_,
      (endLoad_frame loaded s 0).1, ?_, ?_⟩
    · rw [hloader]
      exact List.mem_cons_self
    · rw [hloader]
    · rw [hloader]
      simp
    · rw [endLoads_of_loads hloads hconcludes, hloader]
      rfl
  · have hunderWay : s.loader.underWay = [] := by
      refine List.filter_eq_nil_iff.mpr fun load hlt hnone => hmem ?_
      exact List.mem_of_getElem? (getElem?_of_mem_underWay (List.mem_filter.mpr ⟨hlt, hnone⟩))
    refine ⟨s, w, .refl, hcalm, rfl, rfl, hmem, ?_⟩
    rw [endLoads, hunderWay]
    rfl

/-! ## Quiet services -/

/-- How a service is left between two operations. -/
structure Quiet (s : Service) (w : Work) : Prop where
  sound : s.Sound
  calm : s.IsCalm w
  atRest : s.loader.AtRest
  /-- Who still waits is in the background, and holds on to the loader. -/
  waiting : ∀ i load, s.loader.callers[i]? = some (.waiting load) →
    i ∈ s.started ∧ s.loaderIsOpen = true

/-- A run that leaves a service quiet. -/
def Leads (s : Service) (w : Work) (t : Service) : Prop :=
  ∃ w', Runs (s, w) (t, w') ∧ t.Quiet w'

theorem Leads.trans (h : s.Leads w t) (hmore : ∀ w', t.Quiet w' → t.Leads w' u) :
    s.Leads w u := by
  obtain ⟨w', hruns, hquiet⟩ := h
  obtain ⟨w'', hruns', hquiet'⟩ := hmore w' hquiet
  exact ⟨w'', hruns.trans hruns', hquiet'⟩

theorem quiet_of_start (hstart : s.loader = .start) (hkept : s.kept = 0) : s.Quiet .ahead where
  sound := sound_of_start hstart hkept
  calm := .inl rfl
  atRest c hc := by
    rw [hstart] at hc
    cases hc
  waiting i load hi := by
    rw [hstart] at hi
    cases hi

theorem quiet_of_allGone (hs : s.Sound) (hcalm : s.IsCalm w) (hgone : s.loader.AllGone) :
    s.Quiet w where
  sound := hs
  calm := hcalm
  atRest c hc := ((hgone c hc).blocked s.loader).isAtRest
  waiting i load hi := by
    obtain hcancelled | ⟨o, hreturned⟩ := hgone _ (List.mem_of_getElem? hi)
    · cases hcancelled
    · cases hreturned

/-- After the end of all loads nobody waits. -/
theorem leads_endLoads (hs : s.Sound) (hcalm : s.IsCalm w) (hrest : s.loader.AtRest)
    (hgo : s.loaderIsOpen = true ∨ s.loader.AllGone) {finish : Service → Service × Outcome}
    (hfinish : finish = giveUp ∨ finish = work) :
    s.Leads w (s.endLoads finish) ∧ (s.endLoads finish).loader.AllGone := by
  obtain ⟨t, w', hruns, hcalm', hcallers, hopen, hended, heq⟩ := exists_ended hs hcalm hfinish
  have hsound := hruns.sound hs
  have hrest' : t.loader.AtRest := fun c hc => hrest c (hcallers ▸ hc)
  have hgo' : t.loaderIsOpen = true ∨ t.loader.AllGone :=
    hgo.imp hopen.trans fun hgone c hc => hgone c (hcallers ▸ hc)
  have hgone := Shared.allGone_settle hrest' hsound.one hsound.known hended
  have hsettles : Runs (t, w') ({ t with loader := t.loader.settle }, w') := runs_settle hgo'
  rw [heq]
  refine ⟨⟨w', hruns.trans hsettles, quiet_of_allGone (hsettles.sound hsound) ?_ hgone⟩, hgone⟩
  exact hcalm'.later (Reaches.later (reaches_settle t))

theorem leads_await (hs : s.Sound) (hcalm : s.IsCalm w) (hrest : s.loader.AtRest)
    (hgo : s.loaderIsOpen = true ∨ s.loader.AllGone) :
    s.Leads w s.await ∧ s.await.loader.AllGone := by
  rw [await]
  split
  · exact leads_endLoads hs hcalm hrest hgo (.inl rfl)
  · exact leads_endLoads hs hcalm hrest hgo (.inr rfl)

/-- Who gets the dataset gets it from the loader. -/
theorem dataset?_of_get {d : Dataset} (hs : s.get.1.Sound) (hd : s.get.2 = .ok d) :
    s.get.1.dataset? = some d := by
  have hback : ∀ o, s.get.1.loader.outcomeOf? s.loader.callers.length = some o →
      unwrap o = .ok d → s.get.1.dataset? = some d := by
    intro o ho hunwrap
    rw [mapError_eq_ok.mp hunwrap] at ho
    exact dataset?_eq_some.mpr
      (hs.one.fits _ (List.mem_of_getElem? (Shared.outcomeOf?_eq_some.mp ho)))
  cases ho : s.callLoader.1.loader.outcomeOf? s.loader.callers.length with
  | some o =>
      have hget := get_of_returned ho
      rw [hget] at hd hback
      exact (congrArg (·.1.dataset?) hget).trans (hback o ho hd)
  | none =>
      have hget := get_of_waiting ho
      rw [hget] at hd hback
      rw [hget]
      dsimp only at hd hback
      rw [outcomeOf] at hd
      split at hd
      · next o ho => exact hback o ho hd
      · cases hd

/-- The end of loads does not close the loader. -/
theorem loaderIsOpen_endLoads {finish : Service → Service × Outcome}
    (hfinish : ∀ s, ∃ loaded, finish s = s.conclude loaded) (s : Service) :
    (s.endLoads finish).loaderIsOpen = s.loaderIsOpen :=
  foldl_endLoad_induction (P := fun t => t.loaderIsOpen = s.loaderIsOpen) hfinish
    (fun t loaded load ht => (endLoad_frame loaded t load).1.trans ht) rfl s.loader.underWay

theorem loaderIsOpen_get (s : Service) : s.get.1.loaderIsOpen = s.loaderIsOpen := by
  have hawait : s.callLoader.1.await.loaderIsOpen = s.loaderIsOpen := by
    rw [await]
    split
    · exact loaderIsOpen_endLoads (fun s => ⟨_, rfl⟩) _
    · exact loaderIsOpen_endLoads (fun s => ⟨_, rfl⟩) _
  rw [get]
  dsimp only
  split
  · rfl
  · exact hawait

namespace Quiet

/-- A step that leaves the loader as it is. -/
theorem leads_of_acts (h : s.Quiet w) (hact : Acts (s, w) (t, w))
    (hloader : t.loader = s.loader) (hopen : t.loaderIsOpen = s.loaderIsOpen)
    (hstarted : ∀ i ∈ s.started, i ∈ t.started) : s.Leads w t := by
  refine ⟨w, .single hact, hact.sound h.sound, h.calm.congr hloader, ?_, fun i load hi => ?_⟩
  · rw [hloader]
    exact h.atRest
  · rw [hloader] at hi
    exact (h.waiting i load hi).imp (hstarted i) hopen.trans

theorem leads_beside (h : s.Quiet w) (hdisk : t.disk = s.disk) (hsource : t.source = s.source)
    (hloader : t.loader = s.loader) (hopen : t.loaderIsOpen = s.loaderIsOpen)
    (hkept : t.kept = s.kept) (hstarted : t.started = s.started) : s.Leads w t :=
  h.leads_of_acts (.beside hdisk hsource hloader hopen hkept hstarted) hloader hopen
    fun _ hi => hstarted ▸ hi

/-- A step when nobody waits, after which nobody needs to be in the background
any more. -/
theorem leads_of_allGone (h : s.Quiet w) (hact : Acts (s, w) (t, w))
    (hloader : t.loader = s.loader) (hgone : s.loader.AllGone) : s.Leads w t := by
  refine ⟨w, .single hact, quiet_of_allGone (hact.sound h.sound) (h.calm.congr hloader) ?_⟩
  rw [hloader]
  exact hgone

theorem open_or_allGone (h : s.Quiet w) : s.loaderIsOpen = true ∨ s.loader.AllGone := by
  by_cases hopen : s.loaderIsOpen = true
  · exact .inl hopen
  · refine .inr (h.atRest.allGone fun load hmem => hopen ?_)
    obtain ⟨i, hi⟩ := List.mem_iff_getElem?.mp hmem
    exact (h.waiting i load hi).2

theorem allGone (h : s.Quiet w) (hnobody : ¬ s.started.any s.isWaiting = true) :
    s.loader.AllGone := by
  refine h.atRest.allGone fun load hmem => hnobody ?_
  obtain ⟨i, hi⟩ := List.mem_iff_getElem?.mp hmem
  exact List.any_eq_true.mpr ⟨i, (h.waiting i load hi).1, by rw [isWaiting, hi]⟩

/-! ## Operations one by one -/

theorem leads_idle (h : s.Quiet w) : s.Leads w s.idle := by
  rw [idle]
  split
  · exact ⟨w, .refl, h⟩
  · exact (leads_endLoads h.sound h.calm h.atRest h.open_or_allGone (.inr rfl)).1

theorem leads_letGo (h : s.Quiet w) : s.Leads w s.letGo := by
  have hfree : s.Leads w { s with heldBack := false } := h.leads_beside rfl rfl rfl rfl rfl rfl
  exact hfree.trans fun _ hquiet => hquiet.leads_idle

theorem leads_cancelStarted (h : s.Quiet w) : s.Leads w s.cancelStarted.1 := by
  have hruns : Runs (s, w) (s.cancelStarted.1, w) := runs_cancelStarted h.open_or_allGone
  have hcalm := h.calm.later (Reaches.later (reaches_cancelStarted s))
  refine ⟨w, hruns, hruns.sound h.sound, hcalm, ?_, ?_⟩
  · intro c hc
    obtain ⟨i, hi⟩ := List.mem_iff_getElem?.mp hc
    obtain rfl | hi := Shared.getElem?_foldl_cancelCaller hi
    · trivial
    · exact h.atRest c (List.mem_of_getElem? hi)
  · intro i load hi
    obtain hcancelled | hi := Shared.getElem?_foldl_cancelCaller hi
    · cases hcancelled
    · exact h.waiting i load hi

theorem leads_get (h : s.Quiet w) (hopen : s.loaderIsOpen = true) : s.Leads w s.get.1 := by
  have hcall : Runs (s, w) (s.callLoader.1, w) := runs_callLoader hopen
  have hsound := hcall.sound h.sound
  have hcalm : s.callLoader.1.IsCalm w := h.calm.later (Reaches.later (reaches_callLoader s))
  obtain ⟨hrest, hothers, -⟩ := callLoader_spec h.atRest
  cases ho : s.callLoader.1.loader.outcomeOf? s.loader.callers.length with
  | some o =>
      rw [get_of_returned ho]
      refine ⟨w, hcall, hsound, hcalm, hrest, fun i load hi => ?_⟩
      have hne : i ≠ s.loader.callers.length := by
        rintro rfl
        cases hi.symm.trans (Shared.outcomeOf?_eq_some.mp ho)
      exact h.waiting i load ((hothers i hne).symm.trans hi)
  | none =>
      rw [get_of_waiting ho]
      obtain ⟨w', hruns, hquiet⟩ := (leads_await hsound hcalm hrest (.inl hopen)).1
      exact ⟨w', hcall.trans hruns, hquiet⟩

theorem leads_warmUp (h : s.Quiet w) (hopen : s.loaderIsOpen = true) : s.Leads w s.warmUp := by
  have hcall : Runs (s, w) (s.callLoader.1, w) := runs_callLoader hopen
  have hruns : Runs (s, w) (s.warmUp, w) := hcall.tail (.starts s.loader.callers.length hopen)
  obtain ⟨hrest, hothers, -⟩ := callLoader_spec h.atRest
  refine ⟨w, hruns, hruns.sound h.sound, h.calm.later (Reaches.later (reaches_warmUp s)), hrest,
    fun i load hi => ⟨?_, hopen⟩⟩
  by_cases hnew : i = s.loader.callers.length
  · exact List.mem_append_right _ (List.mem_singleton.mpr hnew)
  · exact List.mem_append_left _ (h.waiting i load ((hothers i hnew).symm.trans hi)).1

theorem leads_respond (h : s.Quiet w) (got : Except Error Dataset) (query : List Single)
    (version : Option String) : s.Leads w (s.respond got query version).1 := by
  cases got with
  | error e => exact ⟨w, .refl, h⟩
  | ok d =>
      rw [respond, answer]
      split
      · exact ⟨w, .refl, h⟩
      · exact h.leads_beside rfl rfl rfl rfl rfl rfl

theorem leads_handle (h : s.Quiet w) (hopen : s.loaderIsOpen = true) (text : String)
    (version : Option String) : s.Leads w (s.handle text version).1 := by
  rw [handle]
  split
  · exact ⟨w, .refl, h⟩
  · exact (h.leads_get hopen).trans fun _ hquiet => hquiet.leads_respond _ _ _

theorem leads_keep (h : s.Quiet w) (hopen : s.loaderIsOpen = true) : s.Leads w s.keep.1 := by
  have hget := h.leads_get hopen
  have hgot := fun d hsound => dataset?_of_get (s := s) (d := d) hsound
  have hopen' := (loaderIsOpen_get s).trans hopen
  rw [keep]
  generalize s.get = pair at hget hgot hopen'
  obtain ⟨t, got⟩ := pair
  cases got with
  | error e => exact hget
  | ok d =>
      refine hget.trans fun w' hquiet => ?_
      exact hquiet.leads_of_acts (.keeps (hgot d hquiet.sound rfl) (.inl hopen')) rfl rfl
        fun _ hi => hi

theorem leads_dropKept (h : s.Quiet w) : s.Leads w s.dropKept.1 := by
  have hact : Acts (s, w) (s.dropKept.1, w) := .releases (Nat.zero_le _) (.refl _)
  obtain ⟨disk, heq⟩ : ∃ disk, s.dropKept.1 = { s with kept := 0, disk } :=
    release_eq s 0 s.started
  rw [heq] at hact ⊢
  exact h.leads_of_acts hact rfl rfl fun _ hi => hi

/-- Callers in the background may be let go once nobody waits. -/
theorem leads_release (h : s.Quiet w) (hgone : s.loader.AllGone) :
    s.Leads w (s.release s.kept []) :=
  h.leads_of_allGone (.releases (Nat.le_refl _) (List.nil_sublist _))
    (release_loader s s.kept []) hgone

theorem leads_join (h : s.Quiet w) : s.Leads w s.join.1 := by
  rw [join]
  dsimp only
  split
  · obtain ⟨hawait, hgone⟩ := leads_await h.sound h.calm h.atRest h.open_or_allGone
    exact hawait.trans fun _ hquiet => hquiet.leads_release hgone
  · next hnobody => exact h.leads_release (h.allGone hnobody)

theorem leads_shutDown (h : s.Quiet w) : s.Leads w s.shutDown.1 := by
  rw [shutDown]
  split
  · exact ⟨w, .refl, h⟩
  · next hopen =>
      have hbeside : s.Leads w { s with processorIsOpen := false } :=
        h.leads_beside rfl rfl rfl rfl rfl rfl
      dsimp only
      split
      · exact hbeside
      · next hnobody =>
          refine hbeside.trans fun w' hquiet => ?_
          exact hquiet.leads_of_allGone (.closes (not_not.mp hopen)) (closeLoader_loader _)
            (hquiet.allGone hnobody)

end Quiet

end GlyphSearch.Service

namespace GlyphSearch.Http

open Service

variable {s t : Service} {w : Work}

/-! ## Requests -/

/-- What a request comes to for the service: nothing, the dataset is asked for,
or a search is refused or answered, and counted. -/
inductive Does (s : Service) : Service → Prop
  | nothing : Does s s
  | gets : Does s s.get.1
  | refuses (status : Status) : Does s { s with counters := s.counters.query status }
  | answers {t : Service} (text : String) (version : Option String) (status : Status)
      (hhandle : (s.handle text version).1 = t) :
      Does s { t with counters := t.counters.query status }

/-- Nothing else comes of any request that a handler answers. -/
def Handler.DoesNoMore (h : Handler) : Prop := ∀ r s, Does s (h r s).1

theorem does_runSearch (fields : SearchFields) (s : Service) : Does s (runSearch fields s).1 := by
  rw [runSearch]
  split
  · exact .refuses .invalid
  · split
    · next t hits heq => exact .answers _ _ .ok (congrArg Prod.fst heq)
    · next t e heq => exact .answers _ _ _ (congrArg Prod.fst heq)

theorem does_searchUrl : Handler.DoesNoMore searchUrl := by
  intro r s
  rw [searchUrl]
  split
  · exact .nothing
  · exact does_runSearch _ s

theorem does_searchForm : Handler.DoesNoMore searchForm := by
  intro r s
  rw [searchForm]
  split
  · exact .nothing
  · split
    · exact .nothing
    · exact does_runSearch _ s

theorem does_warmUp : Handler.DoesNoMore warmUp := by
  intro r s
  have hgets : Does s s.get.1 := .gets
  rw [warmUp]
  generalize s.get = pair at hgets
  obtain ⟨t, got⟩ := pair
  cases got <;> exact hgets

theorem Handler.DoesNoMore.guarded {h : Handler} (hh : h.DoesNoMore) :
    (Http.guarded h).DoesNoMore := by
  intro r s
  rw [Http.guarded]
  split
  · exact .nothing
  · split
    · exact .nothing
    · exact hh r s

theorem does_refuse (status : Nat) : (refuse status).DoesNoMore := fun _ _ => .nothing

theorem doesNoMore_of_mem_routes {route : Route} (hroute : route ∈ routes) {method : String}
    {h : Handler} (hh : route.handler? method = some h) : h.DoesNoMore := by
  rcases handler_cases hroute hh with ⟨-, hsearch⟩ | ⟨base, hbase, hcase⟩
  · rcases searchHandler?_eq_some hsearch with ⟨-, rfl⟩ | ⟨-, rfl⟩ | ⟨-, rfl⟩
    · exact does_searchUrl
    · exact does_searchUrl
    · exact does_searchForm
  · have hdoes : ∀ base ∈ [warmUp, health, metrics], Handler.DoesNoMore base :=
      List.forall_mem_cons.mpr ⟨does_warmUp, List.forall_mem_cons.mpr
        ⟨fun _ _ => .nothing, List.forall_mem_singleton.mpr fun _ _ => .nothing⟩⟩
    -- Without its body a response comes from the same service.
    rcases hcase with rfl | rfl
    · exact hdoes _ hbase
    · exact hdoes base hbase

theorem does_respond (r : Request) (s : Service) : Does s (respond r s).1 := by
  rw [respond]
  split
  · exact (does_refuse 404).guarded r s
  · next route hfind =>
      split
      · next h hh =>
          exact (doesNoMore_of_mem_routes (List.mem_of_find?_eq_some hfind) hh).guarded r s
      · exact (does_refuse 405).guarded r s

theorem Does.reaches (h : Does s t) : Reaches s t := by
  cases h with
  | nothing => exact .refl
  | gets => exact reaches_get s
  | refuses status => exact .single (.beside rfl rfl rfl)
  | answers text version status hhandle =>
      exact (hhandle ▸ reaches_handle s text version).tail (.beside rfl rfl rfl)

theorem Does.leads (h : Does s t) (hquiet : s.Quiet w) (hopen : s.loaderIsOpen = true) :
    s.Leads w t := by
  cases h with
  | nothing => exact ⟨w, .refl, hquiet⟩
  | gets => exact hquiet.leads_get hopen
  | refuses status => exact hquiet.leads_beside rfl rfl rfl rfl rfl rfl
  | answers text version status hhandle =>
      refine (hhandle ▸ hquiet.leads_handle hopen text version).trans fun _ hquiet' => ?_
      exact hquiet'.leads_beside rfl rfl rfl rfl rfl rfl

end GlyphSearch.Http

namespace GlyphSearch.Service

open Dataset Loading

variable {s : Service} {w : Work}

/-! ## All operations -/

/-- What a program can do with its service. -/
inductive Operation where
  | request (r : Http.Request)
  | handle (text : String) (version : Option String)
  | get
  | keep
  | dropKept
  | warmUp
  | idle
  | letGo
  | cancelStarted
  | join
  | shutDown

namespace Operation

/-- Whether an operation asks the loader for the dataset. -/
def asksLoader : Operation → Bool
  | request _ | handle _ _ | get | keep | warmUp => true
  | dropKept | idle | letGo | cancelStarted | join | shutDown => false

/-- What an operation makes of a service. -/
def act (s : Service) : Operation → Service
  | request r => (Http.respond r s).1
  | handle text version => (s.handle text version).1
  | get => s.get.1
  | keep => s.keep.1
  | dropKept => s.dropKept.1
  | warmUp => s.warmUp
  | idle => s.idle
  | letGo => s.letGo
  | cancelStarted => s.cancelStarted.1
  | join => s.join.1
  | shutDown => s.shutDown.1

end Operation

/-- Performs an operation. Nobody can ask a loader that has been closed. -/
def perform (s : Service) (op : Operation) : Service :=
  if s.loaderIsOpen ∨ ¬ op.asksLoader then op.act s else s

def performAll (s : Service) (ops : List Operation) : Service := ops.foldl perform s

theorem reaches_keep (s : Service) : Reaches s s.keep.1 := by
  have hget := reaches_get s
  rw [keep]
  generalize s.get = pair at hget
  obtain ⟨t, got⟩ := pair
  cases got with
  | error e => exact hget
  | ok d => exact hget.tail (.beside rfl rfl rfl)

theorem reaches_shutDown (s : Service) : Reaches s s.shutDown.1 := by
  rw [shutDown]
  split
  · exact .refl
  · have hbeside : Moves s { s with processorIsOpen := false } := .beside rfl rfl rfl
    dsimp only
    split
    · exact .single hbeside
    · obtain ⟨disk, heq⟩ := closeLoader_eq { s with processorIsOpen := false }
      dsimp only
      rw [heq]
      exact .head hbeside (.single (.beside rfl rfl rfl))

theorem reaches_perform (s : Service) (op : Operation) : Reaches s (s.perform op) := by
  rw [perform]
  split
  · cases op with
    | request r => exact (Http.does_respond r s).reaches
    | handle text version => exact reaches_handle s text version
    | get => exact reaches_get s
    | keep => exact reaches_keep s
    | dropKept => exact .single (moves_release s 0 s.started)
    | warmUp => exact reaches_warmUp s
    | idle => exact reaches_idle s
    | letGo => exact reaches_letGo s
    | cancelStarted => exact reaches_cancelStarted s
    | join => exact reaches_join s
    | shutDown => exact reaches_shutDown s
  · exact .refl

/-- Whatever a program does is a run of steps of the loader. -/
theorem reaches_performAll (s : Service) (ops : List Operation) :
    Reaches s (s.performAll ops) := by
  induction ops generalizing s with
  | nil => exact .refl
  | cons op ops ih => exact (reaches_perform s op).trans (ih _)

theorem Quiet.leads_perform (h : s.Quiet w) (op : Operation) : s.Leads w (s.perform op) := by
  rw [perform]
  split
  · next hcan =>
      have hopen : op.asksLoader = true → s.loaderIsOpen = true := fun hasks =>
        hcan.resolve_right (not_not.mpr hasks)
      cases op with
      | request r => exact (Http.does_respond r s).leads h (hopen rfl)
      | handle text version => exact h.leads_handle (hopen rfl) text version
      | get => exact h.leads_get (hopen rfl)
      | keep => exact h.leads_keep (hopen rfl)
      | dropKept => exact h.leads_dropKept
      | warmUp => exact h.leads_warmUp (hopen rfl)
      | idle => exact h.leads_idle
      | letGo => exact h.leads_letGo
      | cancelStarted => exact h.leads_cancelStarted
      | join => exact h.leads_join
      | shutDown => exact h.leads_shutDown
  · exact ⟨w, .refl, h⟩

theorem Quiet.leads_performAll (h : s.Quiet w) (ops : List Operation) :
    s.Leads w (s.performAll ops) := by
  induction ops generalizing s w with
  | nil => exact ⟨w, .refl, h⟩
  | cons op ops ih => exact (h.leads_perform op).trans fun _ hquiet => ih hquiet

/-- Whatever a program does with a new service is a run of steps of those who
have to do with the dataset, and leaves the service quiet. -/
theorem runs_performAll (hstart : s.loader = .start) (hkept : s.kept = 0)
    (ops : List Operation) :
    ∃ w, Runs (s, .ahead) (s.performAll ops, w) ∧ (s.performAll ops).Quiet w :=
  (quiet_of_start hstart hkept).leads_performAll ops

/-- A program loads the dataset at most once. Whatever it has done, it can get
the dataset or the failure of the load, and gets the same ever after. -/
theorem get_performAll (hstart : s.loader = .start) (hkept : s.kept = 0)
    (ops : List Operation) :
    (s.performAll ops).loader.loads.length ≤ 1 ∧
    (s.performAll ops).loadsCounted ≤ s.loadsCounted + 1 ∧
    ∃ o, (s.performAll ops).get.2 = unwrap o ∧
      ∀ more, ((s.performAll ops).get.1.performAll more).get.2 = unwrap o := by
  have hfresh : s.loader.Fresh := .inl hstart
  have hreach := reaches_performAll s ops
  obtain ⟨w, -, hquiet⟩ := runs_performAll hstart hkept ops
  obtain ⟨o, hget, hpublished, -⟩ := get_spec hfresh hreach hquiet.atRest
  have hone := Reaches.loadedOnce hfresh hreach
  refine ⟨hone.loader.length_le, ?_, o, hget, fun more => ?_⟩
  · rcases hone.loadsCounted with hcounted | ⟨hcounted, -⟩
    · omega
    · omega
  · have hlater := Reaches.later (reaches_performAll (s.performAll ops).get.1 more)
    rw [(settled_of_published (hlater.published o hpublished)).get_eq]

end GlyphSearch.Service
