import GlyphSearch.Loading.Shared
import Mathlib.Data.List.Basic

/-!
# What callers of one loader share

`Move` says what one step of a caller can come to, for each place where a
caller may stand, and `Step` what any event can come to. Everything else about
the steps is derived from them.

Two things are. Nobody takes anything back (`Later`): a load stays started, an
outcome stays what it is, and a caller that has come back stays so. And there
is at most one load (`OneLoad`). A second one would be started by a caller that
found neither an outcome nor a pending load. It cannot exist because the
outcome is published before the pending load is cleared, and because a caller
keeps the lock from its last look at the outcome until it has joined a load:
as long as it does, the pending load is not cleared, even if the outcome is
published behind its back.
-/

namespace GlyphSearch.Loading.Shared

variable {ω : Type} {isReady : ω → Bool} {s t : Shared ω} {c c' : Caller ω} {event : Event ω}
  {i : Nat}

/-! ## Steps -/

/-- A step of a caller at `c` leaves it at `c'`, and the cells that all callers
share as in `t`. -/
inductive Move (s : Shared ω) : Caller ω → Shared ω → Caller ω → Prop
  | findAtOnce {o : ω} (ho : s.published = some o) : Move s .arriving s (.returned o)
  | enter (hnone : s.published = none) : Move s .arriving s .entering
  | findLocked {o : ω} (ho : s.published = some o) : Move s .entering s (.returned o)
  | lock (hfree : s.isLocked = false) (hnone : s.published = none) : Move s .entering s .joining
  | join {load : Nat} (hload : s.pending = some load) : Move s .joining s (.waiting load)
  | start (hnone : s.pending = none) :
      Move s .joining { s with loads := s.loads ++ [none], pending := some s.loads.length }
        (.waiting s.loads.length)
  | hear {load : Nat} {o : ω} (ho : s.loads[load]? = some (some o)) :
      Move s (.waiting load) s (.publishing o)
  | publish {o : ω} : Move s (.publishing o) { s with published := some (s.published.getD o) }
      (.clearing (s.published.getD o))
  | clear {o : ω} (hfree : s.isLocked = false) :
      Move s (.clearing o) { s with pending := none } (.returned o)

theorem look_cases (without : Caller ω) :
    (∃ o, s.published = some o ∧ s.look i without = s.place i (.returned o)) ∨
      (s.published = none ∧ s.look i without = s.place i without) := by
  rw [look]
  cases s.published with
  | none => exact .inr ⟨rfl, rfl⟩
  | some o => exact .inl ⟨o, rfl, rfl⟩

/-- All that a caller can do in one step. -/
theorem stepCaller_cases (s : Shared ω) (i : Nat) :
    s.stepCaller i = s ∨
      ∃ c t c', s.callers[i]? = some c ∧ Move s c t c' ∧ s.stepCaller i = t.place i c' := by
  rw [stepCaller]
  split
  · next hc =>
      right
      obtain ⟨o, ho, heq⟩ | ⟨hnone, heq⟩ := look_cases (s := s) (i := i) .entering
      · exact ⟨_, _, _, hc, .findAtOnce ho, heq⟩
      · exact ⟨_, _, _, hc, .enter hnone, heq⟩
  · next hc =>
      split
      · exact .inl rfl
      · next hlocked =>
          right
          obtain ⟨o, ho, heq⟩ | ⟨hnone, heq⟩ := look_cases (s := s) (i := i) .joining
          · exact ⟨_, _, _, hc, .findLocked ho, heq⟩
          · exact ⟨_, _, _, hc, .lock (by simpa using hlocked) hnone, heq⟩
  · next hc =>
      right
      rw [Shared.join]
      split
      · next hload => exact ⟨_, _, _, hc, .join hload, rfl⟩
      · next hnone => exact ⟨_, _, _, hc, .start hnone, rfl⟩
  · next load hc =>
      rw [wait]
      split
      · next o ho => exact .inr ⟨_, _, _, hc, .hear ho, rfl⟩
      · exact .inl rfl
  · next hc => exact .inr ⟨_, _, _, hc, .publish, rfl⟩
  · next hc =>
      split
      · exact .inl rfl
      · next hlocked => exact .inr ⟨_, _, _, hc, .clear (by simpa using hlocked), rfl⟩
  all_goals exact .inl rfl

theorem Move.callers_eq (h : Move s c t c') : t.callers = s.callers := by
  cases h <;> rfl

/-- A step of an observer at the first place leaves it at the second one. -/
inductive Glance (isReady : ω → Bool) (s : Shared ω) : Observer → Observer → Prop
  | find {o : ω} (ho : s.published = some o) :
      Glance isReady s .reading (.saw (stageOf isReady o))
  | miss (hnone : s.published = none) : Glance isReady s .reading .looking
  | look (hfree : s.isLocked = false) : Glance isReady s .looking
      (.saw (if s.pending.isSome then .loading else .uninitialized))

/-- All that an observer can do in one step. -/
theorem stepObserver_cases (isReady : ω → Bool) (s : Shared ω) (i : Nat) :
    s.stepObserver isReady i = s ∨ ∃ o o', s.observers[i]? = some o ∧ Glance isReady s o o' ∧
      s.stepObserver isReady i = { s with observers := s.observers.set i o' } := by
  unfold stepObserver
  dsimp only
  split
  · next hi =>
      right
      split
      · next o ho => exact ⟨_, _, hi, .find ho, rfl⟩
      · next hnone => exact ⟨_, _, hi, .miss hnone, rfl⟩
  · next hi =>
      split
      · exact .inl rfl
      · next hlocked => exact .inr ⟨_, _, hi, .look (by simpa using hlocked), rfl⟩
  · exact .inl rfl

theorem cancelCaller_cases (s : Shared ω) (i : Nat) :
    s.cancelCaller i = s ∨
      ∃ load, s.callers[i]? = some (.waiting load) ∧ s.cancelCaller i = s.place i .cancelled := by
  rw [cancelCaller]
  split
  · next load hc => exact .inr ⟨load, hc, rfl⟩
  · exact .inl rfl

theorem finishLoad_cases (s : Shared ω) (load : Nat) (o : ω) :
    s.finishLoad load o = s ∨
      s.loads[load]? = some none ∧
        s.finishLoad load o = { s with loads := s.loads.set load (some o) } := by
  rw [finishLoad]
  split
  · next hnone => exact .inr ⟨hnone, rfl⟩
  · exact .inl rfl

/-- An event takes the first state to the second one. -/
inductive Step (isReady : ω → Bool) (s : Shared ω) : Event ω → Shared ω → Prop
  | idle {event : Event ω} : Step isReady s event s
  | call : Step isReady s .call { s with callers := s.callers ++ [.arriving] }
  | move {i : Nat} {c : Caller ω} {t : Shared ω} {c' : Caller ω} (hc : s.callers[i]? = some c)
      (hmove : Move s c t c') : Step isReady s (.step i) (t.place i c')
  | cancel {i load : Nat} (hc : s.callers[i]? = some (.waiting load)) :
      Step isReady s (.cancel i) (s.place i .cancelled)
  | finish {load : Nat} {o : ω} (hload : s.loads[load]? = some none) :
      Step isReady s (.finish load o) { s with loads := s.loads.set load (some o) }
  | observe : Step isReady s .observe { s with observers := s.observers ++ [.reading] }
  | glance {i : Nat} {o o' : Observer} (ho : s.observers[i]? = some o)
      (hglance : Glance isReady s o o') :
      Step isReady s (.stepObserver i) { s with observers := s.observers.set i o' }

/-- All that an event can do. -/
theorem step_apply (isReady : ω → Bool) (s : Shared ω) (event : Event ω) :
    Step isReady s event (s.apply isReady event) := by
  cases event with
  | call => exact .call
  | step i =>
      rw [apply]
      obtain heq | ⟨c, t, c', hc, hmove, heq⟩ := stepCaller_cases s i
      · exact heq.symm ▸ .idle
      · exact heq.symm ▸ .move hc hmove
  | cancel i =>
      rw [apply]
      obtain heq | ⟨load, hc, heq⟩ := cancelCaller_cases s i
      · exact heq.symm ▸ .idle
      · exact heq.symm ▸ .cancel hc
  | finish load o =>
      rw [apply]
      obtain heq | ⟨hload, heq⟩ := finishLoad_cases s load o
      · exact heq.symm ▸ .idle
      · exact heq.symm ▸ .finish hload
  | observe => exact .observe
  | stepObserver i =>
      rw [apply]
      obtain heq | ⟨o, o', ho, hglance, heq⟩ := stepObserver_cases isReady s i
      · exact heq.symm ▸ .idle
      · exact heq.symm ▸ .glance ho hglance

theorem not_mem_of_isLocked (h : s.isLocked = false) : .joining ∉ s.callers := by
  intro hmem
  have hlocked : s.isLocked = true := List.any_eq_true.mpr ⟨.joining, hmem, rfl⟩
  rw [h] at hlocked
  cases hlocked

/-! ## What nobody takes back -/

theorem outcomeOf?_eq_some {o : ω} :
    s.outcomeOf? i = some o ↔ s.callers[i]? = some (.returned o) := by
  rw [outcomeOf?]
  split
  · next hc => simp [hc]
  · next hne =>
      constructor
      · intro h
        cases h
      · intro h
        exact absurd h (hne o)

structure Later (s t : Shared ω) : Prop where
  loads_le : s.loads.length ≤ t.loads.length
  outcomes : ∀ o, some o ∈ s.loads → some o ∈ t.loads
  published : ∀ o, s.published = some o → t.published = some o
  returned : ∀ i o, s.outcomeOf? i = some o → t.outcomeOf? i = some o

theorem Later.refl (s : Shared ω) : Later s s :=
  ⟨Nat.le_refl _, fun _ h => h, fun _ h => h, fun _ _ h => h⟩

theorem Later.trans {r : Shared ω} (hrs : Later r s) (hst : Later s t) : Later r t :=
  ⟨Nat.le_trans hrs.loads_le hst.loads_le, fun o h => hst.outcomes o (hrs.outcomes o h),
    fun o h => hst.published o (hrs.published o h),
    fun i o h => hst.returned i o (hrs.returned i o h)⟩

theorem later_place (hc : s.callers[i]? = some c) (hc' : ∀ o, c ≠ .returned o) :
    Later s (s.place i c') := by
  refine ⟨Nat.le_refl _, fun _ h => h, fun _ h => h, fun j o h => ?_⟩
  rw [outcomeOf?_eq_some] at h ⊢
  have hne : i ≠ j := by
    rintro rfl
    exact hc' o (Option.some.inj (hc.symm.trans h))
  rw [place, List.getElem?_set_ne hne]
  exact h

theorem Move.not_returned (h : Move s c t c') : ∀ o, c ≠ .returned o := by
  intro o hc
  subst hc
  cases h

theorem Move.later (h : Move s c t c') : Later s t := by
  cases h with
  | start hnone =>
      exact ⟨by simp, fun o h => List.mem_append_left _ h, fun _ h => h, fun _ _ h => h⟩
  | publish =>
      refine ⟨Nat.le_refl _, fun _ h => h, fun o h => ?_, fun _ _ h => h⟩
      rw [h]
      rfl
  | clear => exact ⟨Nat.le_refl _, fun _ h => h, fun _ h => h, fun _ _ h => h⟩
  | findAtOnce | enter | findLocked | lock | join | hear => exact Later.refl s

theorem Step.later (h : Step isReady s event t) : Later s t := by
  cases h with
  | idle => exact Later.refl s
  | call =>
      refine ⟨Nat.le_refl _, fun _ h => h, fun _ h => h, fun i o h => ?_⟩
      rw [outcomeOf?_eq_some] at h ⊢
      rw [List.getElem?_append_left (List.getElem?_eq_some_iff.mp h).1]
      exact h
  | move hc hmove =>
      refine hmove.later.trans (later_place ?_ hmove.not_returned)
      rw [hmove.callers_eq]
      exact hc
  | cancel hc => exact later_place hc fun o h => by cases h
  | @finish load o hload =>
      refine ⟨by simp, fun o' h => ?_, fun _ h => h, fun _ _ h => h⟩
      obtain ⟨k, hk⟩ := List.mem_iff_getElem?.mp h
      have hne : load ≠ k := by
        rintro rfl
        cases hload.symm.trans hk
      exact List.mem_iff_getElem?.mpr ⟨k, by rw [List.getElem?_set_ne hne, hk]⟩
  | observe | glance => exact ⟨Nat.le_refl _, fun _ h => h, fun _ h => h, fun _ _ h => h⟩

theorem later_apply (isReady : ω → Bool) (s : Shared ω) (event : Event ω) :
    Later s (s.apply isReady event) :=
  (step_apply isReady s event).later

theorem later_stepCaller (s : Shared ω) (i : Nat) : Later s (s.stepCaller i) :=
  later_apply (fun _ => true) s (.step i)

theorem later_finishLoad (s : Shared ω) (load : Nat) (o : ω) : Later s (s.finishLoad load o) :=
  later_apply (fun _ => true) s (.finish load o)

/-! ## One load -/

/-- What the shared cells say of a caller. -/
def Fits (s : Shared ω) : Caller ω → Prop
  | .joining => s.published.isSome → s.pending.isSome
  | .publishing o => some o ∈ s.loads
  | .clearing o | .returned o => s.published = some o
  | .arriving | .entering | .waiting _ | .cancelled => True

structure OneLoad (s : Shared ω) : Prop where
  length_le : s.loads.length ≤ 1
  pending_isSome : s.published = none → s.loads ≠ [] → s.pending.isSome
  outcome_eq : ∀ o, s.published = some o → ∀ x ∈ s.loads, x = some o
  fits : ∀ c ∈ s.callers, s.Fits c

/-- The invariant is about the cells: callers may stand anywhere where they
fit. -/
theorem OneLoad.of_cells (h : s.OneLoad) (hpublished : t.published = s.published)
    (hpending : t.pending = s.pending) (hloads : t.loads = s.loads)
    (hfits : ∀ c ∈ t.callers, s.Fits c) : t.OneLoad := by
  refine ⟨?_, ?_, ?_, fun c hc => ?_⟩
  · rw [hloads]
    exact h.length_le
  · rw [hpublished, hloads, hpending]
    exact h.pending_isSome
  · rw [hpublished, hloads]
    exact h.outcome_eq
  · have hfit := hfits c hc
    cases c with
    | joining | publishing o | clearing o | returned o =>
        simpa only [Fits, hpublished, hpending, hloads] using hfit
    | arriving | entering | waiting load | cancelled => trivial

theorem OneLoad.place (h : s.OneLoad) (hc : s.Fits c) : (s.place i c).OneLoad := by
  refine h.of_cells rfl rfl rfl fun c' hc' => ?_
  rcases List.mem_or_eq_of_mem_set hc' with hmem | rfl
  · exact h.fits c' hmem
  · exact hc

theorem OneLoad.loads_eq_nil (h : s.OneLoad) (hpublished : s.published = none)
    (hpending : s.pending = none) : s.loads = [] := by
  by_contra hne
  have hsome := h.pending_isSome hpublished hne
  rw [hpending] at hsome
  cases hsome

theorem OneLoad.eq_of_mem (h : s.OneLoad) {x y : Option ω} (hx : x ∈ s.loads)
    (hy : y ∈ s.loads) : x = y := by
  match hloads : s.loads, h.length_le with
  | [z], _ =>
      rw [hloads, List.mem_singleton] at hx hy
      rw [hx, hy]
  | [], _ =>
      rw [hloads] at hx
      cases hx
  | _ :: _ :: _, hle =>
      simp at hle

/-- A load is started only where nobody has found an outcome, and there is no
other one then. -/
theorem OneLoad.start (h : s.OneLoad) (hjoining : s.Fits .joining) (hnone : s.pending = none) :
    { s with loads := s.loads ++ [none], pending := some s.loads.length }.OneLoad := by
  have hpublished : s.published = none := by
    by_contra hne
    have hsome := hjoining (Option.isSome_iff_ne_none.mpr hne)
    rw [hnone] at hsome
    cases hsome
  have hloads := h.loads_eq_nil hpublished hnone
  refine ⟨by simp [hloads], fun _ _ => rfl, fun o ho => ?_, fun c hc => ?_⟩
  · cases hpublished.symm.trans ho
  · have hfit := h.fits c hc
    cases c with
    | joining => exact fun _ => rfl
    | publishing o => exact List.mem_append_left _ hfit
    | clearing o | returned o => exact hfit
    | arriving | entering | waiting load | cancelled => trivial

theorem OneLoad.publish {o : ω} (h : s.OneLoad) (ho : some o ∈ s.loads) :
    { s with published := some (s.published.getD o) }.OneLoad := by
  -- With an outcome there before, nothing changes; else there is a load, and it is pending.
  cases hpublished : s.published with
  | some o' =>
      refine h.of_cells ?_ rfl rfl h.fits
      rw [hpublished]
      rfl
  | none =>
      have hpending := h.pending_isSome hpublished (List.ne_nil_of_mem ho)
      refine ⟨h.length_le, fun hnone => ?_, fun o' ho' x hx => ?_, fun c hc => ?_⟩
      · cases hnone
      · cases ho'
        exact h.eq_of_mem hx ho
      · have hfit := h.fits c hc
        cases c with
        | joining => exact fun _ => hpending
        | publishing o' => exact hfit
        | clearing o' | returned o' => cases hpublished.symm.trans hfit
        | arriving | entering | waiting load | cancelled => trivial

/-- With the lock free, nobody is about to join the load that is cleared. -/
theorem OneLoad.clear {o : ω} (h : s.OneLoad) (hfree : s.isLocked = false)
    (ho : s.published = some o) : { s with pending := none }.OneLoad := by
  refine ⟨h.length_le, fun hnone => ?_, h.outcome_eq, fun c hc => ?_⟩
  · cases hnone.symm.trans ho
  · have hfit := h.fits c hc
    cases c with
    | joining => exact absurd hc (not_mem_of_isLocked hfree)
    | publishing o' | clearing o' | returned o' => exact hfit
    | arriving | entering | waiting load | cancelled => trivial

theorem OneLoad.finish {load : Nat} (h : s.OneLoad) (hload : s.loads[load]? = some none) (o : ω) :
    { s with loads := s.loads.set load (some o) }.OneLoad := by
  have hmem : none ∈ s.loads := List.mem_of_getElem? hload
  have hpublished : s.published = none := by
    cases ho : s.published with
    | none => rfl
    | some o' => cases h.outcome_eq o' ho none hmem
  refine ⟨?_, fun _ _ => h.pending_isSome hpublished (List.ne_nil_of_mem hmem), fun o' ho' => ?_,
    fun c hc => ?_⟩
  · rw [List.length_set]
    exact h.length_le
  · cases hpublished.symm.trans ho'
  · have hfit := h.fits c hc
    cases c with
    | joining => exact hfit
    | publishing o' => cases h.eq_of_mem hmem hfit
    | clearing o' | returned o' => exact hfit
    | arriving | entering | waiting load | cancelled => trivial

theorem Move.oneLoad (h : Move s c t c') (hs : s.OneLoad) (hc : s.Fits c) :
    t.OneLoad ∧ t.Fits c' := by
  cases h with
  | findAtOnce ho | findLocked ho => exact ⟨hs, ho⟩
  | enter hnone | join hload => exact ⟨hs, trivial⟩
  | lock hfree hnone =>
      refine ⟨hs, fun hsome => ?_⟩
      rw [hnone] at hsome
      cases hsome
  | start hnone => exact ⟨hs.start hc hnone, trivial⟩
  | hear ho => exact ⟨hs, List.mem_of_getElem? ho⟩
  | publish => exact ⟨hs.publish hc, rfl⟩
  | clear hfree => exact ⟨hs.clear hfree hc, hc⟩

theorem Step.oneLoad (hstep : Step isReady s event t) (h : s.OneLoad) : t.OneLoad := by
  cases hstep with
  | idle => exact h
  | call =>
      refine h.of_cells rfl rfl rfl fun c hc => ?_
      rcases List.mem_append.mp hc with hc | hc
      · exact h.fits c hc
      · rw [List.mem_singleton.mp hc]
        trivial
  | move hc hmove =>
      obtain ⟨ht, hc'⟩ := hmove.oneLoad h (h.fits _ (List.mem_of_getElem? hc))
      exact ht.place hc'
  | cancel => exact h.place trivial
  | @finish load o hload => exact h.finish hload o
  | observe | glance => exact h.of_cells rfl rfl rfl h.fits

theorem OneLoad.apply (h : s.OneLoad) (isReady : ω → Bool) (event : Event ω) :
    (s.apply isReady event).OneLoad :=
  (step_apply isReady s event).oneLoad h

theorem OneLoad.stepCaller (h : s.OneLoad) (i : Nat) : (s.stepCaller i).OneLoad :=
  h.apply (fun _ => true) (.step i)

/-- Nobody has called yet. -/
def Fresh (s : Shared ω) : Prop := s = start ∨ ∃ o, s = done o

theorem Fresh.oneLoad (h : s.Fresh) : s.OneLoad := by
  obtain rfl | ⟨o, rfl⟩ := h
  · refine ⟨Nat.zero_le _, fun _ hne => absurd rfl hne, fun o ho => ?_, fun c hc => ?_⟩
    · cases ho
    · cases hc
  · refine ⟨Nat.zero_le _, fun hnone => ?_, fun _ _ x hx => ?_, fun c hc => ?_⟩
    · cases hnone
    · cases hx
    · cases hc

/-! ## Callers that find the outcome -/

/-- A caller that has not started, or has taken the outcome with its first
step. -/
def Prompt (s : Shared ω) (o : ω) (i : Nat) : Prop :=
  ∀ c, s.callers[i]? = some c → c = .arriving ∨ c = .returned o

theorem Step.prompt {o : ω} (hstep : Step isReady s event t) (h : s.Prompt o i)
    (ho : s.published = some o) : t.Prompt o i := by
  cases hstep with
  | idle => exact h
  | call =>
      intro c hc
      rw [List.getElem?_append] at hc
      split at hc
      · exact h c hc
      · exact .inl (List.mem_singleton.mp (List.mem_of_getElem? hc))
  | @move j c t c' hc hmove =>
      intro d hd
      rw [place, hmove.callers_eq] at hd
      by_cases hij : j = i
      · subst hij
        obtain ⟨-, rfl⟩ := List.getElem?_eq_some_iff.mp hd
        rw [List.getElem_set_self]
        right
        obtain rfl | rfl := h c hc
        · cases hmove with
          | findAtOnce ho' => rw [Option.some.inj (ho.symm.trans ho')]
          | enter hnone => cases hnone.symm.trans ho
        · cases hmove
      · rw [List.getElem?_set_ne hij] at hd
        exact h d hd
  | @cancel j load hc =>
      intro d hd
      by_cases hij : j = i
      · subst hij
        obtain hload | hload := h _ hc <;> cases hload
      · rw [place, List.getElem?_set_ne hij] at hd
        exact h d hd
  | finish | observe | glance => exact h

theorem Prompt.apply {o : ω} (h : s.Prompt o i) (ho : s.published = some o) (isReady : ω → Bool)
    (event : Event ω) : (s.apply isReady event).Prompt o i :=
  (step_apply isReady s event).prompt h ho

theorem outcomeOf?_stepCaller_of_arriving {o : ω} (hc : s.callers[i]? = some .arriving)
    (ho : s.published = some o) : (s.stepCaller i).outcomeOf? i = some o := by
  obtain ⟨hlt, -⟩ := List.getElem?_eq_some_iff.mp hc
  have hstep : s.stepCaller i = s.place i (.returned o) := by
    simp only [stepCaller, hc, look, ho]
  rw [hstep, outcomeOf?_eq_some, place, List.getElem?_set_self hlt]

theorem stepCaller_of_returned {o : ω} (hc : s.callers[i]? = some (.returned o)) :
    s.stepCaller i = s := by
  simp only [stepCaller, hc]

/-- A new caller that finds the outcome changes nothing but that it has been
there. -/
theorem settleCaller_call {o : ω} (isReady : ω → Bool) (ho : s.published = some o) :
    (s.apply isReady .call).settleCaller s.callers.length =
      { s with callers := s.callers ++ [.returned o] } := by
  have hfirst : (s.apply isReady .call).stepCaller s.callers.length =
      { s with callers := s.callers ++ [.returned o] } := by
    simp [stepCaller, Shared.apply, look, ho, place]
  have hstays : Shared.stepCaller { s with callers := s.callers ++ [.returned o] }
      s.callers.length = { s with callers := s.callers ++ [.returned o] } :=
    stepCaller_of_returned (List.getElem?_concat_length ..)
  simp only [settleCaller, Nat.repeat, hfirst, hstays]

/-- Letting all callers go on is a row of their steps. -/
theorem settle_eq_run (isReady : ω → Bool) (s : Shared ω) :
    s.settle = s.run isReady
      ((List.range s.callers.length).flatMap fun i => List.replicate 6 (.step i)) := by
  rw [Shared.run, List.foldl_flatMap]
  rfl

end GlyphSearch.Loading.Shared
