import GlyphSearch.Proofs.Sharing
import GlyphSearch.Service.State

/-!
# Stages as they are reported

A stage that has been reported keeps its grounds. Once a load is under way
there is a load for good, and an outcome that has been read stays published
(`Confirms`). Whoever asks after somebody else has been answered therefore
finds at least as much, in either of the two cells that it looks at.

But it looks at them one after the other, and they change one after the other
in the opposite order: the outcome is published before the pending load is
cleared. Who reads just before the first change that there is no outcome, and
looks just after the second one for a load, finds nothing at all, as if nobody
had ever asked for one. There is no other way for a report to fall behind an
earlier one.
-/

namespace GlyphSearch.Loading

/-- How far a stage is. Ready and failed are both the end. -/
def Stage.rank : Stage → Nat
  | uninitialized => 0
  | loading => 1
  | ready | failed => 2

/-- Whether loading may be reported at a stage and then at another. -/
def Stage.LeadsTo (a b : Stage) : Prop := a = b ∨ a.rank < b.rank

instance : DecidableRel Stage.LeadsTo := fun _ _ => inferInstanceAs (Decidable (_ ∨ _))

theorem leadsTo_of_uninitialized (stage : Stage) : Stage.uninitialized.LeadsTo stage := by
  cases stage <;> decide

/-- The last stages lead on to themselves only. -/
theorem Stage.LeadsTo.eq_of_isLast {a b : Stage} (h : a.LeadsTo b) (ha : a = .ready ∨ a = .failed) :
    b = a := by
  obtain rfl | hlt := h
  · rfl
  · obtain rfl | rfl := ha <;> cases b <;> simp [Stage.rank] at hlt

namespace Shared

variable {ω : Type} {isReady : ω → Bool} {s t : Shared ω} {event : Event ω}

/-! ## Runs -/

/-- What holds at the beginning and is kept by every step holds all along. -/
theorem run_induction {P : Shared ω → Prop} (hs : P s)
    (hstep : ∀ {t event u}, Step isReady t event u → P t → P u) (events : List (Event ω)) :
    P (s.run isReady events) := by
  induction events generalizing s with
  | nil => exact hs
  | cons event events ih => exact ih (hstep (step_apply isReady s event) hs)

theorem later_run (s : Shared ω) (events : List (Event ω)) : Later s (s.run isReady events) :=
  run_induction (Later.refl s) (fun hstep h => h.trans hstep.later) events

theorem OneLoad.run (h : s.OneLoad) (events : List (Event ω)) : (s.run isReady events).OneLoad :=
  run_induction h Step.oneLoad events

/-! ## Observers -/

theorem Move.observers_eq {c c' : Caller ω} (h : Move s c t c') : t.observers = s.observers := by
  cases h <;> rfl

/-- Observers come one by one, and only their own steps move them. -/
theorem Step.observers_cases (h : Step isReady s event t) :
    t.observers = s.observers ∨ t.observers = s.observers ++ [.reading] ∨
    ∃ i o o', s.observers[i]? = some o ∧ Glance isReady s o o' ∧
      t.observers = s.observers.set i o' := by
  cases h with
  | idle | call | cancel | finish => exact .inl rfl
  | move _ hmove => exact .inl hmove.observers_eq
  | observe => exact .inr (.inl rfl)
  | glance ho hglance => exact .inr (.inr ⟨_, _, _, ho, hglance, rfl⟩)

/-! ## What a report is founded on -/

/-- What the cells have to hold for a stage to be reported. -/
inductive Confirms (isReady : ω → Bool) (s : Shared ω) : Stage → Prop
  | uninitialized : Confirms isReady s .uninitialized
  | loading (h : s.loads ≠ []) : Confirms isReady s .loading
  | outcome {o : ω} (ho : s.published = some o) : Confirms isReady s (stageOf isReady o)

theorem Confirms.later {stage : Stage} (h : s.Confirms isReady stage) (hlater : Later s t) :
    t.Confirms isReady stage := by
  cases h with
  | uninitialized => exact .uninitialized
  | loading hne =>
      refine .loading (List.ne_nil_of_length_pos ?_)
      exact Nat.lt_of_lt_of_le (List.length_pos_iff.mpr hne) hlater.loads_le
  | outcome ho => exact .outcome (hlater.published _ ho)

structure Reported (isReady : ω → Bool) (s : Shared ω) : Prop where
  started : s.pending.isSome → s.loads ≠ []
  confirmed : ∀ stage, .saw stage ∈ s.observers → s.Confirms isReady stage

theorem Move.started {c c' : Caller ω} (h : Move s c t c')
    (hs : s.pending.isSome → s.loads ≠ []) : t.pending.isSome → t.loads ≠ [] := by
  cases h with
  | start => exact fun _ => by simp
  | clear => exact nofun
  | findAtOnce | enter | findLocked | lock | join | hear | publish => exact hs

theorem Glance.confirms {o : Observer} {stage : Stage} (h : Glance isReady s o (.saw stage))
    (hs : s.pending.isSome → s.loads ≠ []) : s.Confirms isReady stage := by
  cases h with
  | find ho => exact .outcome ho
  | look =>
      split
      · next hpending => exact .loading (hs hpending)
      · exact .uninitialized

theorem Step.started (h : Step isReady s event t) (hs : s.pending.isSome → s.loads ≠ []) :
    t.pending.isSome → t.loads ≠ [] := by
  cases h with
  | idle | call | cancel | observe | glance => exact hs
  | move _ hmove => exact hmove.started hs
  | finish => exact fun hpending => by simpa using hs hpending

theorem Step.reported (hstep : Step isReady s event t) (h : s.Reported isReady) :
    t.Reported isReady := by
  refine ⟨hstep.started h.started, fun stage hmem => Confirms.later ?_ hstep.later⟩
  obtain heq | heq | ⟨i, o, o', -, hglance, heq⟩ := hstep.observers_cases
  · exact h.confirmed stage (heq ▸ hmem)
  · rw [heq, List.mem_append, List.mem_singleton] at hmem
    obtain hmem | hnew := hmem
    · exact h.confirmed stage hmem
    · cases hnew
  · rw [heq] at hmem
    rcases List.mem_or_eq_of_mem_set hmem with hmem | rfl
    · exact h.confirmed stage hmem
    · exact hglance.confirms h.started

theorem Fresh.reported (h : s.Fresh) : s.Reported isReady := by
  obtain rfl | ⟨o, rfl⟩ := h
  · exact ⟨nofun, nofun⟩
  · exact ⟨nofun, nofun⟩

/-! ## Observers that come later -/

/-- No observer that has come since there were `n` has missed the outcome. -/
def Informed (n : Nat) (s : Shared ω) : Prop := ∀ j, n ≤ j → s.observers[j]? ≠ some .looking

theorem Step.informed {n : Nat} {o : ω} (hstep : Step isReady s event t) (h : s.Informed n)
    (ho : s.published = some o) : t.Informed n := by
  intro j hj hlooking
  obtain heq | heq | ⟨i, _, o', -, hglance, heq⟩ := hstep.observers_cases
  · exact h j hj (heq ▸ hlooking)
  · rw [heq, List.getElem?_append] at hlooking
    split at hlooking
    · exact h j hj hlooking
    · cases List.mem_singleton.mp (List.mem_of_getElem? hlooking)
  · rw [heq] at hlooking
    by_cases hij : i = j
    · subst hij
      obtain ⟨hlt, hsame⟩ := List.getElem?_eq_some_iff.mp hlooking
      rw [List.getElem_set_self] at hsame
      subst hsame
      cases hglance with
      | miss hnone => cases hnone.symm.trans ho
    · rw [List.getElem?_set_ne hij] at hlooking
      exact h j hj hlooking

/-- With an outcome published, everybody who comes finds it. -/
theorem informed_run {o : ω} (ho : s.published = some o) (events : List (Event ω)) :
    (s.run isReady events).Informed s.observers.length := by
  have hbegin : s.Informed s.observers.length := fun j hj hlooking =>
    Nat.not_lt.mpr hj (List.getElem?_eq_some_iff.mp hlooking).1
  have hboth : (s.run isReady events).published = some o ∧
      (s.run isReady events).Informed s.observers.length :=
    run_induction (P := fun t => t.published = some o ∧ t.Informed s.observers.length) ⟨ho, hbegin⟩
      (fun hstep h => ⟨hstep.later.published o h.1, hstep.informed h.2 h.1⟩) events
  exact hboth.2

/-! ## Two reports -/

theorem rank_stageOf (isReady : ω → Bool) (o : ω) : (stageOf isReady o).rank = 2 := by
  rw [stageOf]
  split <;> rfl

/-- The observer at a place misses both the outcome, which has been published
since it looked for it, and the pending load, which has been cleared. -/
structure Misses (s : Shared ω) (j : Nat) : Prop where
  looking : s.observers[j]? = some .looking
  published : s.published.isSome
  cleared : s.pending = none

theorem Glance.eq_uninitialized {o : Observer} {stage : Stage} {j : Nat}
    (h : Glance isReady s o (.saw stage)) (hj : s.observers[j]? = some o) (hmisses : s.Misses j) :
    stage = .uninitialized := by
  cases h with
  | find => cases hj.symm.trans hmisses.looking
  | look => rw [hmisses.cleared]; rfl

/-- An observer that is answered now, after another has been, is told no less
or misses both cells. -/
theorem Glance.leadsTo_or_misses {u : Shared ω} {o : Observer} {earlier later : Stage} {j : Nat}
    (h : Glance isReady u o (.saw later)) (hj : u.observers[j]? = some o) (hone : u.OneLoad)
    (hconfirms : t.Confirms isReady earlier) (hlater : Later t u)
    (hinformed : t.published.isSome → o ≠ .looking) :
    earlier.LeadsTo later ∨ earlier = .loading ∧ later = .uninitialized ∧ u.Misses j := by
  cases hconfirms with
  | uninitialized => exact .inl (leadsTo_of_uninitialized later)
  | loading hne =>
      have hloads : u.loads ≠ [] :=
        List.ne_nil_of_length_pos
          (Nat.lt_of_lt_of_le (List.length_pos_iff.mpr hne) hlater.loads_le)
      cases h with
      | @find o => exact .inl (.inr (by rw [rank_stageOf]; decide))
      | look =>
          cases hpending : u.pending with
          | some load => exact .inl (.inl rfl)
          | none =>
              refine .inr ⟨rfl, rfl, hj, Option.isSome_iff_ne_none.mpr fun hnone => ?_, hpending⟩
              have hsome := hone.pending_isSome hnone hloads
              rw [hpending] at hsome
              cases hsome
  | outcome ho =>
      cases h with
      | find ho' => exact .inl (.inl (by rw [Option.some.inj ((hlater.published _ ho).symm.trans ho')]))
      | look => exact absurd rfl (hinformed (Option.isSome_of_eq_some ho))

/-- Of two observers, the second comes when the first has been answered. What
it is told is never less, with one exception: while it was looking, the outcome
has been published and the pending load has been cleared, and then it is told
that loading has not begun. An outcome that was reported is reported again. -/
theorem stage_reported_goes_back_iff_missed {u : Shared ω} {before between : List (Event ω)}
    {i j : Nat} {earlier later : Stage} (hfresh : s.Fresh) (ht : t = s.run isReady before)
    (hi : t.observers[i]? = some (.saw earlier)) (hj : t.observers.length ≤ j)
    (hu : u = t.run isReady between) (hopen : ∀ stage, u.observers[j]? ≠ some (.saw stage))
    (hnow : (u.stepObserver isReady j).observers[j]? = some (.saw later)) :
    (¬ earlier.LeadsTo later ↔ earlier = .loading ∧ u.Misses j) ∧
    (¬ earlier.LeadsTo later → later = .uninitialized) ∧
    (earlier = .ready ∨ earlier = .failed → later = earlier) := by
  have hone : u.OneLoad := by
    rw [hu, ht]
    exact (hfresh.oneLoad.run before).run between
  have hconfirms : t.Confirms isReady earlier := by
    have hreported : t.Reported isReady := by
      rw [ht]
      exact run_induction hfresh.reported Step.reported before
    exact hreported.confirmed earlier (List.mem_of_getElem? hi)
  have hlater : Later t u := hu ▸ later_run t between
  have hinformed : t.published.isSome → u.observers[j]? ≠ some .looking := fun hsome => by
    obtain ⟨o, ho⟩ := Option.isSome_iff_exists.mp hsome
    rw [hu]
    exact informed_run ho between j hj
  obtain ⟨o, ho, hglance⟩ : ∃ o, u.observers[j]? = some o ∧ Glance isReady u o (.saw later) := by
    obtain heq | ⟨o, o', ho, hglance, heq⟩ := stepObserver_cases isReady u j
    · rw [heq] at hnow
      exact absurd hnow (hopen later)
    · rw [heq, List.getElem?_set_self (List.getElem?_eq_some_iff.mp ho).1] at hnow
      obtain rfl := Option.some.inj hnow
      exact ⟨o, ho, hglance⟩
  have hcases := hglance.leadsTo_or_misses ho hone hconfirms hlater
    fun hsome heq => hinformed hsome (heq ▸ ho)
  refine ⟨⟨fun hback => ?_, ?_⟩, fun hback => (hcases.resolve_left hback).2.1, fun hlast => ?_⟩
  · obtain ⟨hloading, -, hmisses⟩ := hcases.resolve_left hback
    exact ⟨hloading, hmisses⟩
  · rintro ⟨rfl, hmisses⟩
    rw [hglance.eq_uninitialized ho hmisses]
    decide
  · obtain hleads | ⟨rfl, -⟩ := hcases
    · exact hleads.eq_of_isLast hlast
    · simp at hlast

end Shared

end GlyphSearch.Loading

namespace GlyphSearch.Service

open Loading

/-- Loading is reported. Then somebody reads that there is no outcome, and it
is published, but the load has not been cleared yet when it is looked for. -/
theorem stage_reported_goes_back_iff_missed_of_pending :
    let failure : Outcome := .error .noDatasetSource
    let t : Shared Outcome := Shared.start.run isReady
      [.call, .step 0, .step 0, .step 0, .observe, .stepObserver 0, .stepObserver 0]
    let u := t.run isReady [.observe, .stepObserver 1, .finish 0 failure, .step 0, .step 0]
    t.observers = [.saw .loading] ∧ u.published = some failure ∧
    (u.stepObserver isReady 1).observers[1]? = some (.saw .loading) ∧ ¬ u.Misses 1 := by
  intro failure t u
  have hopen : ∀ stage, u.observers[1]? ≠ some (.saw stage) := by
    intro stage heq
    cases (show some Observer.looking = some (.saw stage) from heq)
  have hmain := Shared.stage_reported_goes_back_iff_missed (.inl rfl) (t := t) rfl
    (show t.observers[0]? = some (.saw .loading) from rfl) (Nat.le_refl 1) (u := u) rfl hopen
    (show (u.stepObserver isReady 1).observers[1]? = some (.saw .loading) from rfl)
  refine ⟨rfl, rfl, rfl, fun hmisses => ?_⟩
  exact absurd (.inl rfl) (hmain.1.mpr ⟨rfl, hmisses⟩)

/-- Loading is reported, and after that that it has not begun. -/
theorem loading_reported_and_then_uninitialized :
    let failure : Outcome := .error .noDatasetSource
    let t : Shared Outcome := Shared.start.run isReady
      [.call, .step 0, .step 0, .step 0, .observe, .stepObserver 0, .stepObserver 0]
    let u := t.run isReady [.observe, .stepObserver 1, .finish 0 failure, .step 0, .step 0, .step 0,
      .stepObserver 1]
    t.observers = [.saw .loading] ∧ u.observers = [.saw .loading, .saw .uninitialized] ∧
    u.published = some failure ∧ ¬ Stage.loading.LeadsTo .uninitialized :=
  ⟨rfl, rfl, rfl, by decide⟩

end GlyphSearch.Service
