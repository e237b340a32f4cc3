import GlyphSearch.Proofs.OneLoad

/-!
# Callers that are not kept waiting come back

A caller takes at most six steps from its arrival to its return, and only two
things can hold it up on the way: a lock that somebody else has, and a load
that has not finished. Nobody has the lock where all callers are at rest, that
is where each of them waits for a load, has come back or has been cancelled. So
from such a place a new caller comes back at once or waits for a load, and once
the load has ended all callers come back, the new one among them.

That is why `Service.get` always has an outcome to give.
-/

namespace GlyphSearch.Loading

namespace Caller

variable {ω : Type}

/-- How many steps a caller is away from its return at most. -/
def rank : Caller ω → Nat
  | arriving => 6
  | entering => 5
  | joining => 4
  | waiting _ => 3
  | publishing _ => 2
  | clearing _ => 1
  | returned _ | cancelled => 0

theorem rank_le (c : Caller ω) : c.rank ≤ 6 := by
  cases c <;> simp [rank]

/-- Whether a caller waits for a load, has come back or has been cancelled. -/
def IsAtRest : Caller ω → Prop
  | waiting _ | returned _ | cancelled => True
  | arriving | entering | joining | publishing _ | clearing _ => False

end Caller

namespace Shared

variable {ω : Type} {s t : Shared ω} {c c' : Caller ω} {i : Nat}

theorem Move.rank_lt (h : Move s c t c') : c'.rank < c.rank := by
  cases h <;> simp [Caller.rank]

theorem Move.ne_cancelled (h : Move s c t c') : c' ≠ .cancelled := by
  cases h <;> simp

def AtRest (s : Shared ω) : Prop := ∀ c ∈ s.callers, c.IsAtRest

/-- All callers but one are at rest. -/
def OthersAtRest (s : Shared ω) (i : Nat) : Prop :=
  ∀ j c, j ≠ i → s.callers[j]? = some c → c.IsAtRest

theorem AtRest.others (h : s.AtRest) (i : Nat) : s.OthersAtRest i :=
  fun _ c _ hc => h c (List.mem_of_getElem? hc)

theorem OthersAtRest.atRest (h : s.OthersAtRest i) (hi : ∀ c, s.callers[i]? = some c → c.IsAtRest) :
    s.AtRest := by
  intro c hc
  obtain ⟨j, hj⟩ := List.mem_iff_getElem?.mp hc
  by_cases hij : j = i
  · subst hij
    exact hi c hj
  · exact h j c hij hj

/-- Only the caller itself could have the lock. -/
theorem OthersAtRest.isLocked_eq (h : s.OthersAtRest i) (hc : s.callers[i]? = some c)
    (hne : c ≠ .joining) : s.isLocked = false := by
  rw [isLocked, List.any_eq_false]
  intro d hd hjoining
  obtain ⟨j, hj⟩ := List.mem_iff_getElem?.mp hd
  cases d with
  | joining =>
      by_cases hij : j = i
      · subst hij
        exact hne (Option.some.inj (hc.symm.trans hj))
      · exact h j _ hij hj
  | arriving | entering | waiting load | publishing o | clearing o | returned o | cancelled =>
      cases hjoining

/-- Whether a caller cannot go on by itself: it is gone, or its load has not
finished. -/
def Blocked (s : Shared ω) : Caller ω → Prop
  | .waiting load => ∀ o, s.loads[load]? ≠ some (some o)
  | .returned _ | .cancelled => True
  | .arriving | .entering | .joining | .publishing _ | .clearing _ => False

theorem Blocked.isAtRest (h : s.Blocked c) : c.IsAtRest := by
  cases c with
  | waiting load | returned o | cancelled => trivial
  | arriving | entering | joining | publishing o | clearing o => exact h

theorem Blocked.stepCaller_eq (h : s.Blocked c) (hc : s.callers[i]? = some c) :
    s.stepCaller i = s := by
  cases c with
  | waiting load =>
      rw [stepCaller, hc]
      dsimp only
      rw [wait]
      split
      · next o ho => exact absurd ho (h o)
      · rfl
  | returned o => exact stepCaller_of_returned hc
  | cancelled => rw [stepCaller, hc]
  | arriving | entering | joining | publishing o | clearing o => exact h.elim

theorem exists_move (h : s.OthersAtRest i) (hc : s.callers[i]? = some c) (hgo : ¬ s.Blocked c) :
    ∃ t c', Move s c t c' ∧ s.stepCaller i = t.place i c' := by
  rw [stepCaller, hc]
  cases c with
  | arriving =>
      obtain ⟨o, ho, heq⟩ | ⟨hnone, heq⟩ := look_cases (s := s) (i := i) .entering
      · exact ⟨_, _, .findAtOnce ho, heq⟩
      · exact ⟨_, _, .enter hnone, heq⟩
  | entering =>
      have hfree := h.isLocked_eq hc (by simp)
      dsimp only
      rw [hfree]
      obtain ⟨o, ho, heq⟩ | ⟨hnone, heq⟩ := look_cases (s := s) (i := i) .joining
      · exact ⟨_, _, .findLocked ho, heq⟩
      · exact ⟨_, _, .lock hfree hnone, heq⟩
  | joining =>
      dsimp only
      rw [Shared.join]
      split
      · next hload => exact ⟨_, _, .join hload, rfl⟩
      · next hnone => exact ⟨_, _, .start hnone, rfl⟩
  | waiting load =>
      have hfinished : ∃ o, s.loads[load]? = some (some o) := by
        by_contra hnot
        exact hgo fun o ho => hnot ⟨o, ho⟩
      obtain ⟨o, ho⟩ := hfinished
      dsimp only
      rw [wait, ho]
      exact ⟨_, _, .hear ho, rfl⟩
  | publishing o => exact ⟨_, _, .publish, rfl⟩
  | clearing o =>
      have hfree := h.isLocked_eq hc (by simp)
      dsimp only
      rw [hfree]
      exact ⟨_, _, .clear hfree, rfl⟩
  | returned o => exact absurd trivial hgo
  | cancelled => exact absurd trivial hgo

theorem getElem?_stepCaller_of_ne {j : Nat} (hij : j ≠ i) :
    (s.stepCaller i).callers[j]? = s.callers[j]? := by
  obtain heq | ⟨c, t, c', hc, hmove, heq⟩ := stepCaller_cases s i
  · rw [heq]
  · rw [heq, place, List.getElem?_set_ne hij.symm, hmove.callers_eq]

theorem length_callers_stepCaller (s : Shared ω) (i : Nat) :
    (s.stepCaller i).callers.length = s.callers.length := by
  obtain heq | ⟨c, t, c', hc, hmove, heq⟩ := stepCaller_cases s i
  · rw [heq]
  · rw [heq, place, List.length_set, hmove.callers_eq]

/-- What `n` steps of a caller leave, if all others are at rest: the others are
where they were, and the caller is `n` steps further or cannot go on. -/
structure Steps (s : Shared ω) (i n : Nat) (c : Caller ω) (t : Shared ω) : Prop where
  others : ∀ j, j ≠ i → t.callers[j]? = s.callers[j]?
  length_eq : t.callers.length = s.callers.length
  caller : ∃ c', t.callers[i]? = some c' ∧ (t.Blocked c' ∨ c'.rank + n ≤ c.rank) ∧
    (c ≠ .cancelled → c' ≠ .cancelled)

theorem steps_repeat (h : s.OthersAtRest i) (hc : s.callers[i]? = some c) (n : Nat) :
    Steps s i n c (Nat.repeat (·.stepCaller i) n s) := by
  induction n with
  | zero => exact ⟨fun _ _ => rfl, rfl, c, hc, .inr (Nat.le_refl _), id⟩
  | succ n ih =>
      obtain ⟨hothers, hlength, d, hd, hgoes, hkept⟩ := ih
      rw [Nat.repeat]
      generalize Nat.repeat (·.stepCaller i) n s = t at hothers hlength hd hgoes
      have hrest : t.OthersAtRest i := by
        intro j c' hij hc'
        rw [hothers j hij] at hc'
        exact h j c' hij hc'
      refine ⟨fun j hij => (getElem?_stepCaller_of_ne hij).trans (hothers j hij),
        (length_callers_stepCaller t i).trans hlength, ?_⟩
      by_cases hblocked : t.Blocked d
      · rw [hblocked.stepCaller_eq hd]
        exact ⟨d, hd, .inl hblocked, hkept⟩
      · obtain ⟨u, d', hmove, heq⟩ := exists_move hrest hd hblocked
        have hlt : i < u.callers.length := by
          rw [hmove.callers_eq]
          exact (List.getElem?_eq_some_iff.mp hd).1
        have hrank := hmove.rank_lt
        have hle := hgoes.resolve_left hblocked
        rw [heq]
        refine ⟨d', List.getElem?_set_self hlt, .inr (by omega), fun _ => hmove.ne_cancelled⟩

/-- A caller goes on until it cannot any more. -/
theorem settleCaller_spec (h : s.OthersAtRest i) (hc : s.callers[i]? = some c) :
    (s.settleCaller i).AtRest ∧
      (∀ j, j ≠ i → (s.settleCaller i).callers[j]? = s.callers[j]?) ∧
      (s.settleCaller i).callers.length = s.callers.length ∧
      ∃ c', (s.settleCaller i).callers[i]? = some c' ∧ (s.settleCaller i).Blocked c' ∧
        (c ≠ .cancelled → c' ≠ .cancelled) := by
  obtain ⟨hothers, hlength, c', hc', hgoes, hkept⟩ := steps_repeat h hc 6
  have hblocked : (s.settleCaller i).Blocked c' := by
    refine hgoes.elim id fun hle => ?_
    have hzero : c'.rank = 0 := by
      have := c.rank_le
      omega
    cases c' with
    | returned o | cancelled => trivial
    | arriving | entering | joining | waiting load | publishing o | clearing o => cases hzero
  refine ⟨OthersAtRest.atRest (i := i) ?_ ?_, hothers, hlength, c', hc', hblocked, hkept⟩
  · intro j d hij hd
    rw [settleCaller, hothers j hij] at hd
    exact h j d hij hd
  · intro d hd
    cases hc'.symm.trans hd
    exact hblocked.isAtRest

/-! ## Loads that callers wait for -/

/-- Every load that is waited for has been started. -/
structure Known (s : Shared ω) : Prop where
  pending : ∀ load, s.pending = some load → load < s.loads.length
  waiting : ∀ load, .waiting load ∈ s.callers → load < s.loads.length

theorem Known.place (h : s.Known) (hc : ∀ load, c = .waiting load → load < s.loads.length) :
    (s.place i c).Known := by
  refine ⟨h.pending, fun load hmem => ?_⟩
  rcases List.mem_or_eq_of_mem_set hmem with hmem | heq
  · exact h.waiting load hmem
  · exact hc load heq.symm

theorem Known.of_le (h : s.Known) (hcallers : t.callers = s.callers)
    (hpending : ∀ load, t.pending = some load → load < t.loads.length)
    (hle : s.loads.length ≤ t.loads.length) : t.Known := by
  refine ⟨hpending, fun load hmem => ?_⟩
  rw [hcallers] at hmem
  exact Nat.lt_of_lt_of_le (h.waiting load hmem) hle

theorem Move.known (h : Move s c t c') (hs : s.Known) :
    t.Known ∧ ∀ load, c' = .waiting load → load < t.loads.length := by
  cases h with
  | join hload =>
      refine ⟨hs, fun load heq => ?_⟩
      cases heq
      exact hs.pending _ hload
  | start hnone =>
      refine ⟨hs.of_le rfl (fun load hload => ?_) (by simp), fun load heq => ?_⟩
      · cases hload
        simp
      · cases heq
        simp
  | publish => exact ⟨hs.of_le rfl hs.pending (Nat.le_refl _), by simp⟩
  | clear => exact ⟨hs.of_le rfl (by simp) (Nat.le_refl _), by simp⟩
  | findAtOnce | enter | findLocked | lock | hear => exact ⟨hs, by simp⟩

theorem Step.known {isReady : ω → Bool} {event : Event ω} (hstep : Step isReady s event t)
    (h : s.Known) : t.Known := by
  cases hstep with
  | idle => exact h
  | call =>
      refine ⟨h.pending, fun load hmem => ?_⟩
      rcases List.mem_append.mp hmem with hmem | hmem
      · exact h.waiting load hmem
      · cases List.mem_singleton.mp hmem
  | move hc hmove =>
      obtain ⟨ht, hc'⟩ := hmove.known h
      exact ht.place hc'
  | cancel => exact h.place fun load heq => by cases heq
  | finish => exact h.of_le rfl (by simpa using h.pending) (by simp)
  | observe | glance => exact h.of_le rfl h.pending (Nat.le_refl _)

theorem Known.apply (h : s.Known) (isReady : ω → Bool) (event : Event ω) :
    (s.apply isReady event).Known :=
  (step_apply isReady s event).known h

theorem Known.stepCaller (h : s.Known) (i : Nat) : (s.stepCaller i).Known :=
  h.apply (fun _ => true) (.step i)

theorem Known.finishLoad (h : s.Known) (load : Nat) (o : ω) : (s.finishLoad load o).Known :=
  h.apply (fun _ => true) (.finish load o)

theorem Fresh.known (h : s.Fresh) : s.Known := by
  obtain rfl | ⟨o, rfl⟩ := h
  · exact ⟨by simp [Shared.start], by simp [Shared.start]⟩
  · exact ⟨by simp [Shared.done], by simp [Shared.done]⟩

/-- With its load finished, a caller that cannot go on is gone. -/
theorem Blocked.outcome (h : s.Blocked c) (hone : s.OneLoad) (hknown : s.Known)
    (hc : c ∈ s.callers) (hne : c ≠ .cancelled) {o : ω} (ho : some o ∈ s.loads) :
    ∃ o', c = .returned o' := by
  cases c with
  | returned o' => exact ⟨o', rfl⟩
  | cancelled => exact absurd rfl hne
  | waiting load =>
      have hlt := hknown.waiting load hc
      have hload := hone.eq_of_mem (List.getElem_mem hlt) ho
      exact absurd ((List.getElem?_eq_getElem hlt).trans (congrArg some hload)) (h o)
  | arriving | entering | joining | publishing o' | clearing o' => exact h.elim

/-- A caller that is held up by its load waits for the only one. -/
theorem Blocked.loads_eq {load : Nat} (h : s.Blocked (.waiting load)) (hone : s.OneLoad)
    (hlt : load < s.loads.length) : s.loads = [none] := by
  obtain ⟨only, hloads⟩ :=
    List.length_eq_one_iff.mp (Nat.le_antisymm hone.length_le (Nat.zero_lt_of_lt hlt))
  rw [hloads, List.length_singleton, Nat.lt_one_iff] at hlt
  subst hlt
  cases only with
  | none => exact hloads
  | some o => exact absurd (by rw [hloads]; rfl) (h o)

/-! ## All callers -/

/-- What each step of a caller keeps, all of them together keep. -/
theorem settleCaller_induction {P : Shared ω → Prop} (hstep : ∀ t, P t → P (t.stepCaller i))
    (h : P s) : P (s.settleCaller i) := by
  have hsteps : ∀ n, P (Nat.repeat (·.stepCaller i) n s) := by
    intro n
    induction n with
    | zero => exact h
    | succ n ih => exact hstep _ ih
  exact hsteps 6

theorem oneLoad_settleCaller (h : s.OneLoad) (i : Nat) : (s.settleCaller i).OneLoad :=
  settleCaller_induction (fun _ ht => ht.stepCaller i) h

theorem known_settleCaller (h : s.Known) (i : Nat) : (s.settleCaller i).Known :=
  settleCaller_induction (fun _ ht => ht.stepCaller i) h

theorem later_settleCaller (s : Shared ω) (i : Nat) : Later s (s.settleCaller i) :=
  settleCaller_induction (P := Later s) (fun t ht => ht.trans (later_stepCaller t i)) (.refl s)

/-- Callers that go on one after the other all come back. -/
theorem foldl_settleCaller_spec {o : ω} {order : List Nat}
    (hin : ∀ i ∈ order, i < s.callers.length) (hrest : s.AtRest) (hone : s.OneLoad)
    (hknown : s.Known) (ho : some o ∈ s.loads) :
    (order.foldl settleCaller s).AtRest ∧
      ∀ i c, s.callers[i]? = some c → c ≠ .cancelled → (i ∈ order ∨ ∃ o', c = .returned o') →
        ∃ o', (order.foldl settleCaller s).outcomeOf? i = some o' := by
  induction order generalizing s with
  | nil =>
      refine ⟨hrest, fun i c hc _ hback => ?_⟩
      obtain ⟨o', rfl⟩ := hback.resolve_left List.not_mem_nil
      exact ⟨o', outcomeOf?_eq_some.mpr hc⟩
  | cons j order ih =>
      have hj : j < s.callers.length := hin j List.mem_cons_self
      obtain ⟨hrest', hothers, hlength, c', hc', hblocked, hkept⟩ :=
        settleCaller_spec (hrest.others j) (List.getElem?_eq_getElem hj)
      have hone' := oneLoad_settleCaller hone j
      have hknown' := known_settleCaller hknown j
      have ho' := (later_settleCaller s j).outcomes o ho
      obtain ⟨hsettled, hback⟩ := ih
        (fun i hi => hlength ▸ hin i (List.mem_cons_of_mem _ hi)) hrest' hone' hknown' ho'
      refine ⟨hsettled, fun i c hc hne hcome => ?_⟩
      by_cases hij : i = j
      · -- The caller that has just gone on cannot go on further, so it is gone.
        subst hij
        have heq : s.callers[i] = c :=
          Option.some.inj ((List.getElem?_eq_getElem hj).symm.trans hc)
        have hne' : c' ≠ .cancelled := hkept (heq ▸ hne)
        exact hback i c' hc' hne' (.inr (hblocked.outcome hone' hknown'
          (List.mem_of_getElem? hc') hne' ho'))
      · refine hback i c ((hothers i hij).trans hc) hne ?_
        exact hcome.imp_left fun hmem => (List.mem_cons.mp hmem).resolve_left hij

/-- With the load finished, everybody who has not been cancelled comes back
when all callers have gone on one after the other. -/
theorem settle_spec {o : ω} (hrest : s.AtRest) (hone : s.OneLoad) (hknown : s.Known)
    (ho : some o ∈ s.loads) :
    s.settle.AtRest ∧ ∀ i c, s.callers[i]? = some c → c ≠ .cancelled →
      ∃ o', s.settle.outcomeOf? i = some o' := by
  have hin : ∀ i ∈ List.range s.callers.length, i < s.callers.length :=
    fun i hi => List.mem_range.mp hi
  obtain ⟨hsettled, hback⟩ := foldl_settleCaller_spec hin hrest hone hknown ho
  refine ⟨hsettled, fun i c hc hne => hback i c hc hne (.inl ?_)⟩
  exact List.mem_range.mpr (List.getElem?_eq_some_iff.mp hc).1

end Shared

end GlyphSearch.Loading

namespace GlyphSearch.Service

open Dataset Loading

variable {s t : Service}

theorem Moves.known (h : Moves s t) (hs : s.loader.Known) : t.loader.Known := by
  cases h with
  | loading event => exact hs.apply isReady event
  | ends loaded hload =>
      rw [endLoad_loader]
      exact hs.finishLoad _ _
  | beside hloader =>
      rw [hloader]
      exact hs

theorem Reaches.known (hfresh : s.loader.Fresh) (h : Reaches s t) : t.loader.Known := by
  induction h with
  | refl => exact hfresh.known
  | tail _ hmove ih => exact hmove.known ih

/-! ## The end of all loads -/

theorem discardOutcome_eq (s : Service) (o : Outcome) :
    ∃ disk, s.discardOutcome o = { s with disk } := by
  cases o <;> exact ⟨_, rfl⟩

/-- What the end of a load may change. -/
theorem endLoad_eq (loaded : Loaded) (s : Service) (load : Nat) :
    ∃ disk counters log, endLoad (conclude loaded) s load =
      { s with disk, counters, log, loader := s.loader.finishLoad load loaded.result } := by
  rw [endLoad]
  dsimp only
  split
  · exact ⟨_, _, _, rfl⟩
  · obtain ⟨disk, heq⟩ := discardOutcome_eq
      { (s.conclude loaded).1 with
        loader := s.loader.finishLoad load loaded.result } loaded.result
    exact ⟨disk, _, _, heq⟩

theorem endLoads_of_loads {finish : Service → Service × Outcome} {loaded : Loaded}
    (hloads : s.loader.loads = [none]) (hfinish : finish s = s.conclude loaded) :
    s.endLoads finish =
      { endLoad (conclude loaded) s 0 with
        loader := { s.loader with loads := [some loaded.result] }.settle } := by
  have hunderWay : s.loader.underWay = [0] := by
    rw [Shared.underWay, hloads]
    rfl
  have hpending : s.loader.loads[0]? = some none := by
    rw [hloads]
    rfl
  have hloader := endLoad_loader_of_underWay loaded hpending
  rw [endLoads, hunderWay, List.foldl_cons, List.foldl_nil, endLoad_eq_conclude hfinish]
  dsimp only
  rw [hloader, hloads]
  rfl

/-- A load is waited for until it ends, one way or the other. -/
theorem await_of_loads (hloads : s.loader.loads = [none]) :
    ∃ loaded, s.await =
      { endLoad (conclude loaded) s 0 with
        loader := { s.loader with loads := [some loaded.result] }.settle } := by
  rw [await]
  split
  · exact ⟨_, endLoads_of_loads hloads rfl⟩
  · exact ⟨_, endLoads_of_loads hloads rfl⟩

/-! ## Getting the dataset -/

/-- A new caller comes back at once or waits for a load. The others stay where
they are. -/
theorem callLoader_spec (hrest : s.loader.AtRest) :
    s.callLoader.1.loader.AtRest ∧
      (∀ j, j ≠ s.loader.callers.length →
        s.callLoader.1.loader.callers[j]? = s.loader.callers[j]?) ∧
      ∃ c, s.callLoader.1.loader.callers[s.loader.callers.length]? = some c ∧
        s.callLoader.1.loader.Blocked c ∧ c ≠ .cancelled := by
  have hbefore : ∀ j, j ≠ s.loader.callers.length →
      (s.loader.apply isReady .call).callers[j]? = s.loader.callers[j]? := by
    intro j hne
    rw [Shared.apply, List.getElem?_append]
    split
    · rfl
    · rw [List.getElem?_eq_none (by simp only [List.length_singleton]; omega),
        List.getElem?_eq_none (by omega)]
  have hothers : (s.loader.apply isReady .call).OthersAtRest s.loader.callers.length :=
    fun j c hne hc => hrest c (List.mem_of_getElem? ((hbefore j hne).symm.trans hc))
  have hnew : (s.loader.apply isReady .call).callers[s.loader.callers.length]? =
      some .arriving := List.getElem?_concat_length ..
  obtain ⟨hsettled, hstay, _, c, hc, hblocked, hkept⟩ := Shared.settleCaller_spec hothers hnew
  exact ⟨hsettled, fun j hne => (hstay j hne).trans (hbefore j hne), c, hc, hblocked,
    hkept (by simp)⟩

theorem get_of_returned {o : Outcome}
    (ho : s.callLoader.1.loader.outcomeOf? s.loader.callers.length = some o) :
    s.get = (s.callLoader.1, unwrap o) := by
  have hcall : s.callLoader = (s.callLoader.1, s.loader.callers.length) := rfl
  rw [get, hcall]
  dsimp only
  rw [ho]

theorem get_of_waiting
    (hnone : s.callLoader.1.loader.outcomeOf? s.loader.callers.length = none) :
    s.get = (s.callLoader.1.await, s.callLoader.1.await.outcomeOf s.loader.callers.length) := by
  have hcall : s.callLoader = (s.callLoader.1, s.loader.callers.length) := rfl
  rw [get, hcall]
  dsimp only
  rw [hnone]

/-- Waiting for the only load brings everybody back. -/
theorem await_spec (hone : s.loader.OneLoad) (hknown : s.loader.Known) (hrest : s.loader.AtRest)
    (hloads : s.loader.loads = [none]) :
    s.await.loader.AtRest ∧ s.await.searches = s.searches ∧
      ∀ i c, s.loader.callers[i]? = some c → c ≠ .cancelled →
        ∃ o, s.await.loader.outcomeOf? i = some o := by
  obtain ⟨loaded, hawait⟩ := await_of_loads hloads
  obtain ⟨disk, counters, log, hend⟩ := endLoad_eq loaded s 0
  have hone' : { s.loader with loads := [some loaded.result] }.OneLoad := by
    have hpending : s.loader.loads[0]? = some none := by
      rw [hloads]
      rfl
    have h := hone.finish hpending loaded.result
    rwa [hloads] at h
  have hknown' : { s.loader with loads := [some loaded.result] }.Known :=
    hknown.of_le rfl (by simpa [hloads] using hknown.pending) (by simp [hloads])
  have hrest' : { s.loader with loads := [some loaded.result] }.AtRest := hrest
  obtain ⟨hsettled, hback⟩ := Shared.settle_spec hrest' hone' hknown' List.mem_cons_self
  rw [hawait]
  refine ⟨hsettled, ?_, hback⟩
  rw [hend]

/-- Where all callers are at rest, the dataset or the failure of its load can
always be had, and it is what everybody gets. -/
theorem get_spec (hfresh : s.loader.Fresh) (ht : Reaches s t) (hrest : t.loader.AtRest) :
    ∃ o, t.get.2 = unwrap o ∧ t.get.1.loader.published = some o ∧ t.get.1.loader.AtRest ∧
      t.get.1.searches = t.searches := by
  have hcalled := ht.trans (reaches_callLoader t)
  have hone := (Reaches.loadedOnce hfresh hcalled).loader
  have hknown := Reaches.known hfresh hcalled
  obtain ⟨hatRest, -, c, hc, hblocked, hne⟩ := callLoader_spec hrest
  cases c with
  | returned o =>
      rw [get_of_returned (Shared.outcomeOf?_eq_some.mpr hc)]
      exact ⟨o, rfl, hone.fits _ (List.mem_of_getElem? hc), hatRest, rfl⟩
  | waiting load =>
      have hloads := hblocked.loads_eq hone (hknown.waiting load (List.mem_of_getElem? hc))
      obtain ⟨hsettled, hsearches, hback⟩ := await_spec hone hknown hatRest hloads
      obtain ⟨o, ho⟩ := hback _ _ hc hne
      have hfinal := (Reaches.loadedOnce hfresh (hcalled.trans (reaches_await _))).loader
      rw [get_of_waiting (by rw [Shared.outcomeOf?, hc])]
      refine ⟨o, ?_, ?_, hsettled, hsearches⟩
      · rw [outcomeOf, ho]
      · exact hfinal.fits _ (List.mem_of_getElem? (Shared.outcomeOf?_eq_some.mp ho))
  | cancelled => exact absurd rfl hne
  | arriving | entering | joining | publishing o | clearing o => exact hblocked.elim

end GlyphSearch.Service
