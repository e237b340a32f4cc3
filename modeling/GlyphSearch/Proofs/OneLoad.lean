import GlyphSearch.Service.State
import GlyphSearch.Proofs.Sharing
import Mathlib.Logic.Relation

/-!
# A service loads its dataset once

Callers, loads and requests go on in the service side by side. `Moves` is one
step of any of them, as far as the loader and the counters of loads are
concerned; where the steps of one end and those of another begin is left open.
What the service itself does, a row of steps that nothing comes between, is a
special case.

The steps of the loader keep `Shared.OneLoad`. It remains to see that a load is
counted when it ends and that it ends once, which the list of loads records: a
load that has its outcome is not under way any more.
-/

namespace GlyphSearch.Service

open Dataset Loading

inductive Moves : Service → Service → Prop
  /-- A step of a caller. A load whose task has broken down ends here as well:
  nobody counts it. -/
  | loading (s : Service) (event : Event Outcome) :
      Moves s { s with loader := s.loader.apply isReady event }
  /-- A load that is under way ends with whatever it has come to. -/
  | ends {s : Service} {load : Nat} (loaded : Loaded)
      (hload : s.loader.loads[load]? = some none) :
      Moves s (endLoad (conclude loaded) s load)
  | beside {s t : Service} (hloader : t.loader = s.loader)
      (hok : t.counters.loadsOk = s.counters.loadsOk)
      (hfailed : t.counters.loadsFailed = s.counters.loadsFailed) : Moves s t

abbrev Reaches : Service → Service → Prop := Relation.ReflTransGen Moves

/-- The loads that have been counted. -/
def loadsCounted (s : Service) : Nat := s.counters.loadsOk + s.counters.loadsFailed

variable {s t u : Service} {o : Outcome}

/-! ## The end of a load -/

theorem discardOutcome_loader (s : Service) (o : Outcome) :
    (s.discardOutcome o).loader = s.loader := by
  cases o <;> rfl

theorem discardOutcome_counters (s : Service) (o : Outcome) :
    (s.discardOutcome o).counters = s.counters := by
  cases o <;> rfl

theorem endLoad_loader (loaded : Loaded) (s : Service) (load : Nat) :
    (endLoad (conclude loaded) s load).loader = s.loader.finishLoad load loaded.result := by
  rw [endLoad]
  dsimp only
  split
  · rfl
  · rw [discardOutcome_loader]
    rfl

theorem endLoad_loader_of_underWay {load : Nat} (loaded : Loaded)
    (hload : s.loader.loads[load]? = some none) :
    (endLoad (conclude loaded) s load).loader =
      { s.loader with loads := s.loader.loads.set load (some loaded.result) } := by
  rw [endLoad_loader, Shared.finishLoad, hload]

theorem endLoad_counters (loaded : Loaded) (s : Service) (load : Nat) :
    (endLoad (conclude loaded) s load).counters =
      s.counters.load (isReady loaded.result) loaded.members := by
  rw [endLoad]
  dsimp only
  split
  · rfl
  · rw [discardOutcome_counters]
    rfl

theorem endLoad_loadsCounted (loaded : Loaded) (s : Service) (load : Nat) :
    (endLoad (conclude loaded) s load).loadsCounted = s.loadsCounted + 1 := by
  rw [loadsCounted, endLoad_counters, Counters.load, loadsCounted]
  cases isReady loaded.result
  · simp only [Bool.false_eq_true, ↓reduceIte]
    omega
  · simp only [↓reduceIte]
    omega

/-- Only what a load comes to matters for its end. -/
theorem endLoad_eq_conclude {finish : Service → Service × Outcome} {loaded : Loaded}
    (hfinish : finish s = s.conclude loaded) (load : Nat) :
    endLoad finish s load = endLoad (conclude loaded) s load := by
  rw [endLoad, hfinish, endLoad]

/-- What the end of each load keeps, the end of all keeps. -/
theorem foldl_endLoad_induction {P : Service → Prop} {finish : Service → Service × Outcome}
    (hfinish : ∀ s, ∃ loaded, finish s = s.conclude loaded)
    (hend : ∀ s loaded load, P s → P (endLoad (conclude loaded) s load)) (h : P s)
    (loads : List Nat) : P (loads.foldl (endLoad finish) s) := by
  induction loads generalizing s with
  | nil => exact h
  | cons load loads ih =>
      obtain ⟨loaded, hloaded⟩ := hfinish s
      rw [List.foldl_cons, endLoad_eq_conclude hloaded]
      exact ih (hend s loaded load h)

/-! ## What the service does is such a run -/

theorem reaches_run (s : Service) (events : List (Event Outcome)) :
    Reaches s { s with loader := s.loader.run isReady events } := by
  induction events generalizing s with
  | nil => exact .refl
  | cons event events ih => exact .head (.loading s event) (ih _)

theorem reaches_callLoader (s : Service) : Reaches s s.callLoader.1 :=
  reaches_run s (.call :: List.replicate 6 (.step s.loader.callers.length))

theorem reaches_settle (s : Service) : Reaches s { s with loader := s.loader.settle } := by
  rw [Shared.settle_eq_run isReady]
  exact reaches_run s _

theorem getElem?_of_mem_underWay {loader : Shared Outcome} {load : Nat}
    (h : load ∈ loader.underWay) : loader.loads[load]? = some none := by
  obtain ⟨hrange, hnone⟩ := List.mem_filter.mp h
  rw [List.getElem?_eq_getElem (List.mem_range.mp hrange)] at hnone ⊢
  rw [Option.join_some, Option.isNone_iff_eq_none] at hnone
  rw [hnone]

/-- Loads that are under way end one after the other: the end of one leaves the
others under way. -/
theorem reaches_foldl_endLoad {finish : Service → Service × Outcome}
    (hfinish : ∀ s, ∃ loaded, finish s = s.conclude loaded) {loads : List Nat}
    (hnodup : loads.Nodup) (hunderWay : ∀ load ∈ loads, s.loader.loads[load]? = some none) :
    Reaches s (loads.foldl (endLoad finish) s) := by
  induction loads generalizing s with
  | nil => exact .refl
  | cons load loads ih =>
      obtain ⟨hnew, hnodup⟩ := List.nodup_cons.mp hnodup
      obtain ⟨loaded, hloaded⟩ := hfinish s
      have hload := hunderWay load (List.mem_cons_self ..)
      refine .head (.ends loaded hload) ?_
      rw [List.foldl_cons, endLoad_eq_conclude hloaded]
      refine ih hnodup fun other hother => ?_
      have hne : load ≠ other := by
        rintro rfl
        exact hnew hother
      rw [endLoad_loader_of_underWay loaded hload, List.getElem?_set_ne hne]
      exact hunderWay other (List.mem_cons_of_mem _ hother)

theorem reaches_endLoads {finish : Service → Service × Outcome}
    (hfinish : ∀ s, ∃ loaded, finish s = s.conclude loaded) (s : Service) :
    Reaches s (s.endLoads finish) := by
  have hnodup : s.loader.underWay.Nodup := List.nodup_range.filter _
  exact (reaches_foldl_endLoad hfinish hnodup fun load => getElem?_of_mem_underWay).trans
    (reaches_settle _)

theorem reaches_await (s : Service) : Reaches s s.await := by
  rw [await]
  split
  · exact reaches_endLoads (fun s => ⟨_, rfl⟩) s
  · exact reaches_endLoads (fun s => ⟨_, rfl⟩) s

theorem reaches_get (s : Service) : Reaches s s.get.1 := by
  rw [get]
  dsimp only
  split
  · exact reaches_callLoader s
  · exact (reaches_callLoader s).trans (reaches_await _)

theorem reaches_respond (s : Service) (got : Except Error Dataset) (query : List Single)
    (version : Option String) : Reaches s (s.respond got query version).1 := by
  cases got with
  | error e => exact .refl
  | ok d =>
      rw [respond, answer]
      split
      · exact .refl
      · exact .single (.beside rfl rfl rfl)

theorem reaches_handle (s : Service) (text : String) (version : Option String) :
    Reaches s (s.handle text version).1 := by
  rw [handle]
  split
  · exact .refl
  · exact (reaches_get s).trans (reaches_respond _ _ _ _)

/-! ## What steps and runs preserve -/

theorem Moves.later (h : Moves s t) : Shared.Later s.loader t.loader := by
  cases h with
  | loading event => exact Shared.later_apply isReady s.loader event
  | ends loaded hload =>
      rw [endLoad_loader]
      exact Shared.later_finishLoad _ _ _
  | beside hloader =>
      rw [hloader]
      exact Shared.Later.refl _

theorem Reaches.later (h : Reaches s t) : Shared.Later s.loader t.loader := by
  induction h with
  | refl => exact Shared.Later.refl _
  | tail _ hmove ih => exact ih.trans hmove.later

/-- There has been at most one load, and it has been counted at most once since
there were as many as `counted`. -/
structure LoadedOnce (counted : Nat) (s : Service) : Prop where
  loader : s.loader.OneLoad
  loadsCounted : s.loadsCounted = counted ∨
    s.loadsCounted = counted + 1 ∧ ∃ o, some o ∈ s.loader.loads

theorem Moves.loadedOnce {counted : Nat} (h : Moves s t) (hs : s.LoadedOnce counted) :
    t.LoadedOnce counted := by
  have hkept : t.loadsCounted = s.loadsCounted → t.loadsCounted = counted ∨
      t.loadsCounted = counted + 1 ∧ ∃ o, some o ∈ t.loader.loads := by
    intro heq
    rw [heq]
    exact hs.loadsCounted.imp_right fun ⟨hcounted, o, ho⟩ => ⟨hcounted, o, h.later.outcomes o ho⟩
  cases h with
  | loading event => exact ⟨hs.loader.apply isReady event, hkept rfl⟩
  | ends loaded hload =>
      have hloader := endLoad_loader_of_underWay loaded hload
      refine ⟨?_, .inr ⟨?_, loaded.result, ?_⟩⟩
      · rw [hloader]
        exact hs.loader.finish hload loaded.result
      · -- An outcome that has been counted would be that of the load that ends only now.
        rw [endLoad_loadsCounted]
        rcases hs.loadsCounted with hcounted | ⟨-, o, ho⟩
        · rw [hcounted]
        · cases hs.loader.eq_of_mem (List.mem_of_getElem? hload) ho
      · rw [hloader]
        exact List.mem_set (List.getElem?_eq_some_iff.mp hload).1 _
  | beside hloader hok hfailed =>
      refine ⟨?_, hkept ?_⟩
      · rw [hloader]
        exact hs.loader
      · rw [Service.loadsCounted, hok, hfailed, Service.loadsCounted]

theorem Reaches.loadedOnce (hfresh : s.loader.Fresh) (h : Reaches s t) :
    t.LoadedOnce s.loadsCounted := by
  induction h with
  | refl => exact ⟨hfresh.oneLoad, .inl rfl⟩
  | tail _ hmove ih => exact hmove.loadedOnce ih

theorem Moves.prompt {i : Nat} (h : Moves s t) (ho : s.loader.published = some o)
    (hs : s.loader.Prompt o i) : t.loader.Prompt o i := by
  cases h with
  | loading event => exact hs.apply ho isReady event
  | ends loaded hload =>
      rw [endLoad_loader_of_underWay loaded hload]
      exact hs
  | beside hloader =>
      rw [hloader]
      exact hs

theorem Reaches.prompt {i : Nat} (h : Reaches s t) (ho : s.loader.published = some o)
    (hs : s.loader.Prompt o i) : t.loader.Prompt o i := by
  induction h with
  | refl => exact hs
  | tail hreach hmove ih => exact hmove.prompt (Reaches.later hreach |>.published o ho) ih

/-! ## One load for everybody -/

/-- The outcome that everybody gets from now on, without waiting for it. -/
structure Settled (s : Service) (o : Outcome) : Prop where
  published : s.loader.published = some o
  dataset_iff : ∀ d, s.dataset? = some d ↔ o = .ok d
  get_eq : s.get =
    ({ s with loader := { s.loader with callers := s.loader.callers ++ [.returned o] } }, unwrap o)

theorem settled_of_published (ho : s.loader.published = some o) : s.Settled o := by
  refine ⟨ho, fun d => ?_, ?_⟩
  · rw [dataset?, ho]
    cases o <;> simp [Except.toOption]
  · have hback : Shared.outcomeOf?
        { s.loader with callers := s.loader.callers ++ [.returned o] }
        s.loader.callers.length = some o :=
      Shared.outcomeOf?_eq_some.mpr (List.getElem?_concat_length ..)
    simp only [get, callLoader, Shared.settleCaller_call isReady ho, hback]

/-- However the steps of callers and of loads follow each other, there is one
load at most, and one outcome, which everybody gets who comes back. As soon as
somebody has, it is there for good. -/
theorem dataset_loaded_once_for_all_callers (hfresh : s.loader.Fresh) (ht : Reaches s t) :
    t.loader.loads.length ≤ 1 ∧
    t.loadsCounted ≤ s.loadsCounted + 1 ∧
    (∀ i j o o', t.loader.outcomeOf? i = some o → t.loader.outcomeOf? j = some o' → o = o') ∧
    (∀ o u, t.loader.published = some o → Reaches t u → u.loader.published = some o) ∧
    ∀ i o u, t.loader.outcomeOf? i = some o → Reaches t u →
      u.Settled o ∧ u.loader.outcomeOf? i = some o ∧
      ∀ j, (∀ c, t.loader.callers[j]? = some c → c = .arriving) →
        u.loader.Prompt o j ∧
        (u.loader.callers[j]? = some .arriving →
          (u.loader.stepCaller j).outcomeOf? j = some o) := by
  have hone := Reaches.loadedOnce hfresh ht
  have hpublished : ∀ i o, t.loader.outcomeOf? i = some o → t.loader.published = some o :=
    fun i o hi => hone.loader.fits _ (List.mem_of_getElem? (Shared.outcomeOf?_eq_some.mp hi))
  refine ⟨hone.loader.length_le, ?_, ?_, ?_, ?_⟩
  · rcases hone.loadsCounted with hcounted | ⟨hcounted, -⟩
    · omega
    · omega
  · intro i j o o' hi hj
    exact Option.some.inj ((hpublished i o hi).symm.trans (hpublished j o' hj))
  · intro o u ho hu
    exact (Reaches.later hu).published o ho
  · intro i o u hi hu
    have ho := hpublished i o hi
    have ho' := (Reaches.later hu).published o ho
    refine ⟨settled_of_published ho', (Reaches.later hu).returned i o hi, fun j hj => ⟨?_, ?_⟩⟩
    · exact Reaches.prompt hu ho fun c hc => .inl (hj c hc)
    · exact fun hc => Shared.outcomeOf?_stepCaller_of_arriving hc ho'

/-- The caller that has started the load is cancelled. The load fails, and the
other caller comes back with the failure. -/
theorem dataset_loaded_once_for_all_callers_of_cancelled :
    let s := ofSource ⟨.empty, [], [], 0⟩ .absent Config.DatasetSettings.default.layout 30 1024 ""
    let failure : Outcome := .error .noDatasetSource
    s.loader.Fresh ∧ ∃ t, Reaches s t ∧
      t.loader.callers = [.cancelled, .returned failure] ∧ t.loadsCounted = 1 ∧
      t.loader.loads.length ≤ 1 ∧ t.Settled failure := by
  intro s failure
  have hfresh : s.loader.Fresh := .inl rfl
  have hcalls : s.loader.run isReady [.call, .call, .step 0, .step 1, .step 0, .step 0, .step 1,
      .step 1, .cancel 0] = ⟨none, some 0, [none], [.cancelled, .waiting 0], []⟩ := by cbv
  have hwait : Reaches s
      { s with loader := ⟨none, some 0, [none], [.cancelled, .waiting 0], []⟩ } :=
    hcalls ▸ reaches_run s _
  have hunderWay : ([none] : List (Option Outcome))[0]? = some none := rfl
  have hend := hwait.tail (.ends ⟨s.disk, 0, failure, []⟩ hunderWay)
  have hback : Shared.run isReady ⟨none, some 0, [some failure], [.cancelled, .waiting 0], []⟩
      [.step 1, .step 1, .step 1] =
        ⟨some failure, none, [some failure], [.cancelled, .returned failure], []⟩ := by cbv
  have hreach := hend.trans (reaches_run _ [.step 1, .step 1, .step 1])
  rw [endLoad_loader_of_underWay _ hunderWay] at hreach
  have hcallers := congrArg Shared.callers hback
  have hreturned := Shared.outcomeOf?_eq_some.mpr (congrArg (·[1]?) hcallers)
  have hmain := dataset_loaded_once_for_all_callers hfresh hreach
  exact ⟨hfresh, _, hreach, hcallers, endLoad_loadsCounted _ _ _, hmain.1,
    (hmain.2.2.2.2 1 failure _ hreturned .refl).1⟩

end GlyphSearch.Service
