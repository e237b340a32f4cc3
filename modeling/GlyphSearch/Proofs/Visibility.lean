import GlyphSearch.Http.Handler
import GlyphSearch.Proofs.Copies
import GlyphSearch.Proofs.OneLoad

/-!
# When a finished load can be seen

A load goes on without its callers, but it does not publish what it has come
to: that is left to the first caller that hears of it. So the outcome is there
for everybody only if somebody has heard. `Heard` says as much of every state:
where the outcome of a load has been published, some caller has it.

A caller can be cancelled only while it waits, that is before it has heard.
Once all callers have come back or have been cancelled, the outcome is
therefore published exactly if one of them has come back. If all have been
cancelled, the load stays pending, and is reported as under way although it
has finished, until somebody asks for the dataset again.
-/

namespace GlyphSearch.Loading

/-- Whether a caller has the published outcome. -/
def Caller.HasOutcome {ω : Type} : Caller ω → Prop
  | .clearing _ | .returned _ => True
  | .arriving | .entering | .joining | .waiting _ | .publishing _ | .cancelled => False

/-- Whether a caller has come back or has been cancelled. -/
def Caller.IsGone {ω : Type} (c : Caller ω) : Prop := c = .cancelled ∨ ∃ o, c = .returned o

namespace Shared

variable {ω : Type} {s t : Shared ω} {c c' : Caller ω} {i : Nat}

/-- The outcome of a load is not published behind the callers' backs. -/
def Heard (s : Shared ω) : Prop :=
  s.published.isSome → s.loads ≠ [] → ∃ c ∈ s.callers, c.HasOutcome

theorem exists_hasOutcome_place (hc : s.callers[i]? = some c)
    (hkeeps : c.HasOutcome → c'.HasOutcome) (h : ∃ d ∈ s.callers, d.HasOutcome) :
    ∃ d ∈ (s.place i c').callers, d.HasOutcome := by
  obtain ⟨d, hd, hhas⟩ := h
  obtain ⟨j, hj⟩ := List.mem_iff_getElem?.mp hd
  by_cases hij : i = j
  · subst hij
    rw [hc] at hj
    cases hj
    exact ⟨c', List.mem_set (List.getElem?_eq_some_iff.mp hc).1 _, hkeeps hhas⟩
  · refine ⟨d, List.mem_iff_getElem?.mpr ⟨j, ?_⟩, hhas⟩
    rw [place, List.getElem?_set_ne hij]
    exact hj

/-- Whoever publishes an outcome has it, and nobody who has it loses it. -/
theorem Move.heard (h : Move s c t c') (hs : s.Heard) (hfits : s.Fits c)
    (hc : s.callers[i]? = some c) : (t.place i c').Heard := by
  have hlt : i < t.callers.length := by
    rw [h.callers_eq]
    exact (List.getElem?_eq_some_iff.mp hc).1
  have hhas : c'.HasOutcome → (t.place i c').Heard := fun hhas _ _ =>
    ⟨c', List.mem_set hlt c', hhas⟩
  cases h with
  | findAtOnce | findLocked | publish | clear => exact hhas trivial
  | enter | lock | join | hear =>
      intro hpublished hloads
      exact exists_hasOutcome_place hc (fun hnot => hnot.elim) (hs hpublished hloads)
  | start hnone =>
      intro hpublished
      have hpending := hfits hpublished
      rw [hnone] at hpending
      cases hpending

theorem Step.heard {isReady : ω → Bool} {event : Event ω} (hstep : Step isReady s event t)
    (h : s.Heard) (hone : s.OneLoad) : t.Heard := by
  cases hstep with
  | idle | observe | glance => exact h
  | call =>
      intro hpublished hloads
      obtain ⟨c, hc, hhas⟩ := h hpublished hloads
      exact ⟨c, List.mem_append_left _ hc, hhas⟩
  | move hc hmove => exact hmove.heard h (hone.fits _ (List.mem_of_getElem? hc)) hc
  | cancel hc =>
      intro hpublished hloads
      exact exists_hasOutcome_place hc (fun hnot => hnot.elim) (h hpublished hloads)
  | finish hload =>
      exact fun hpublished _ => h hpublished (List.ne_nil_of_mem (List.mem_of_getElem? hload))

theorem Heard.apply (h : s.Heard) (hone : s.OneLoad) (isReady : ω → Bool) (event : Event ω) :
    (s.apply isReady event).Heard :=
  (step_apply isReady s event).heard h hone

theorem Fresh.heard (h : s.Fresh) : s.Heard := by
  obtain rfl | ⟨o, rfl⟩ := h
  · exact fun _ hloads => absurd rfl hloads
  · exact fun _ hloads => absurd rfl hloads

/-! ## When all callers are gone -/

/-- Of a finished load whose callers are all gone, the outcome has been
published exactly if one of them has not been cancelled. -/
theorem published_eq_some_iff {o : ω} (hone : s.OneLoad) (hheard : s.Heard)
    (hfinished : some o ∈ s.loads) (hgone : ∀ c ∈ s.callers, c.IsGone) :
    s.published = some o ↔ ∃ c ∈ s.callers, c ≠ .cancelled := by
  constructor
  · intro ho
    obtain ⟨c, hc, hhas⟩ := hheard (by rw [ho]; rfl) (List.ne_nil_of_mem hfinished)
    refine ⟨c, hc, ?_⟩
    rintro rfl
    exact hhas
  · rintro ⟨c, hc, hne⟩
    obtain rfl | ⟨o', rfl⟩ := hgone c hc
    · exact absurd rfl hne
    · have ho' : s.published = some o' := hone.fits _ hc
      rw [ho', Option.some.inj (hone.outcome_eq o' ho' _ hfinished)]

theorem published_eq_none {o : ω} (hone : s.OneLoad) (hheard : s.Heard)
    (hfinished : some o ∈ s.loads) (hcancelled : ∀ c ∈ s.callers, c = .cancelled) :
    s.published = none := by
  cases hpublished : s.published with
  | none => rfl
  | some o' =>
      have ho : o' = o := Option.some.inj (hone.outcome_eq o' hpublished _ hfinished).symm
      rw [ho] at hpublished
      obtain ⟨c, hc, hne⟩ := (published_eq_some_iff hone hheard hfinished
        fun c hc => .inl (hcancelled c hc)).mp hpublished
      exact absurd (hcancelled c hc) hne

theorem stage_of_published {o : ω} (isReady : ω → Bool) (ho : s.published = some o) :
    s.stage isReady = stageOf isReady o := by
  rw [stage, ho]

theorem stage_of_pending (isReady : ω → Bool) (hnone : s.published = none)
    (hpending : s.pending.isSome) : s.stage isReady = .loading := by
  rw [stage, hnone]
  exact if_pos hpending

end Shared
end GlyphSearch.Loading

namespace GlyphSearch.Service

open Dataset Http Loading

variable {s t u : Service} {o : Outcome}

theorem Reaches.heard (hfresh : s.loader.Fresh) (h : Reaches s t) : t.loader.Heard := by
  induction h with
  | refl => exact hfresh.heard
  | tail hreach hmove ih =>
      cases hmove with
      | loading event => exact ih.apply (Reaches.loadedOnce hfresh hreach).loader isReady event
      | ends loaded hload =>
          rw [endLoad_loader_of_underWay loaded hload]
          exact fun hpublished _ =>
            ih hpublished (List.ne_nil_of_mem (List.mem_of_getElem? hload))
      | beside hloader =>
          rw [hloader]
          exact ih

/-- What is reported of a load that has come to some outcome. -/
def report (o : Outcome) : Response :=
  if isReady o then
    .json 200 (.ofFields [("dataset", .ofText "ready"), ("status", .ofText "ok")])
  else .json 503 (.ofFields [("dataset", .ofText "failed"), ("status", .ofText "failed")])

theorem health_of_published (ho : s.loader.published = some o) (r : Request) :
    health r s = (s, report o) := by
  have hstage : s.stage = Shared.stageOf isReady o := Shared.stage_of_published isReady ho
  rw [health, hstage, Shared.stageOf, report]
  cases isReady o <;> rfl

/-- A caller that asks for the stage finds the outcome with its first step. -/
theorem stepObserver_of_published (ho : s.loader.published = some o) {i : Nat}
    (hi : s.loader.observers[i]? = some .reading) :
    (s.loader.stepObserver isReady i).observers[i]? =
      some (.saw (Shared.stageOf isReady o)) := by
  obtain ⟨hlt, -⟩ := List.getElem?_eq_some_iff.mp hi
  simp only [Shared.stepObserver, hi, ho]
  exact List.getElem?_set_self hlt

/-- Once a load has finished and its callers have all come back or have been
cancelled, everybody is told for good what it has come to, if only one of the
callers has not been cancelled. If all have been, the load is still reported
as under way. -/
theorem finished_load_visible_iff_caller_stayed (hfresh : s.loader.Fresh) (ht : Reaches s t)
    (hfinished : some o ∈ t.loader.loads) (hgone : ∀ c ∈ t.loader.callers, c.IsGone) :
    ((∃ c ∈ t.loader.callers, c ≠ .cancelled) → ∀ u, Reaches t u →
      u.stage = (if isReady o then .ready else .failed) ∧
      (∀ i, u.loader.observers[i]? = some .reading →
        (u.loader.stepObserver isReady i).observers[i]? =
          some (.saw (if isReady o then .ready else .failed))) ∧
      ∀ r, health r u = (u, report o) ∧ ((report o).status = 200 ↔ isReady o)) ∧
    ((∀ c ∈ t.loader.callers, c = .cancelled) →
      t.stage = .loading ∧ ∀ r, (health r t).2.status = 503) := by
  have hone := (Reaches.loadedOnce hfresh ht).loader
  have hheard := Reaches.heard hfresh ht
  constructor
  · intro hstayed u hu
    have ho := (Shared.published_eq_some_iff hone hheard hfinished hgone).mpr hstayed
    have ho' := (Reaches.later hu).published o ho
    refine ⟨Shared.stage_of_published isReady ho', ?_, fun r => ⟨health_of_published ho' r, ?_⟩⟩
    · exact fun i hi => stepObserver_of_published ho' hi
    · rw [report]
      cases isReady o <;> simp [Response.json]
  · intro hcancelled
    have hnone := Shared.published_eq_none hone hheard hfinished hcancelled
    have hstage : t.stage = .loading := Shared.stage_of_pending isReady hnone
      (hone.pending_isSome hnone (List.ne_nil_of_mem hfinished))
    refine ⟨hstage, fun r => ?_⟩
    rw [health, hstage]
    rfl

/-! ## The load of a small dataset -/

/-- A service on the disk of the small dataset. -/
def onShelf (archive : Bytes) (source : Source) : Service :=
  ofSource (shelf archive) source Config.Settings.default.dataset.layout 30 1024 ""

/-- Callers start the load, and it ends while some of them are left. -/
theorem reaches_finished (hstart : s.loader = .start) (loaded : Loaded)
    (events : List (Event Outcome)) (callers : List (Caller Outcome))
    (hcalls : Shared.run isReady .start events = ⟨none, some 0, [none], callers, []⟩) :
    ∃ t, Reaches s t ∧ t.loadsCounted = s.loadsCounted + 1 ∧
      t.loader = ⟨none, some 0, [some loaded.result], callers, []⟩ := by
  have hunderWay : ([none] : List (Option Outcome))[0]? = some none := rfl
  have hreach := reaches_run s events
  rw [hstart, hcalls] at hreach
  refine ⟨_, hreach.tail (.ends loaded hunderWay), ?_, ?_⟩
  · exact endLoad_loadsCounted _ _ _
  · exact endLoad_loader_of_underWay _ hunderWay

/-- The first of two callers is cancelled, and the second comes back. -/
theorem reaches_second_returned (hstart : s.loader = .start) (loaded : Loaded) :
    ∃ t, Reaches s t ∧ t.loader = ⟨some loaded.result, none, [some loaded.result],
      [.cancelled, .returned loaded.result], []⟩ := by
  obtain ⟨t, ht, -, hloader⟩ := reaches_finished hstart loaded
    [.call, .call, .step 0, .step 1, .step 0, .step 0, .step 1, .step 1, .cancel 0]
    [.cancelled, .waiting 0] rfl
  refine ⟨_, ht.trans (reaches_run t [.step 1, .step 1, .step 1]), ?_⟩
  rw [hloader]
  rfl

theorem finished_load_visible_of_second_caller :
    let s := onShelf [] (.directory "/data")
    let o := (load s.source s.layout s.disk).result
    isReady o = true ∧ ∃ t, s.loader.Fresh ∧ Reaches s t ∧ some o ∈ t.loader.loads ∧
      (∀ c ∈ t.loader.callers, c.IsGone) ∧ (∃ c ∈ t.loader.callers, c ≠ .cancelled) ∧
      t.stage = .ready := by
  intro s o
  have hready : isReady o = true := by decide +kernel
  have hstart : s.loader = .start := rfl
  have hfresh : s.loader.Fresh := .inl hstart
  obtain ⟨t, ht, hloader⟩ := reaches_second_returned hstart (load s.source s.layout s.disk)
  have hfinished : some o ∈ t.loader.loads := by
    rw [hloader]
    exact List.mem_cons_self
  have hgone : ∀ c ∈ t.loader.callers, c.IsGone := by
    rw [hloader]
    simp [Caller.IsGone]
  have hstayed : ∃ c ∈ t.loader.callers, c ≠ .cancelled := by
    rw [hloader]
    simp
  have hmain := finished_load_visible_iff_caller_stayed hfresh ht hfinished hgone
  refine ⟨hready, t, hfresh, ht, hfinished, hgone, hstayed, ?_⟩
  rw [(hmain.1 hstayed t .refl).1, if_pos hready]

/-- The only caller is cancelled while it waits, and then the load succeeds: it
is counted, and is still reported as under way. -/
theorem finished_load_hidden_of_cancelled_caller :
    let s := onShelf [] (.directory "/data")
    let o := (load s.source s.layout s.disk).result
    isReady o = true ∧ ∃ t, s.loader.Fresh ∧ Reaches s t ∧ t.loadsCounted = 1 ∧
      t.loader.loads = [some o] ∧ t.loader.callers = [.cancelled] ∧
      t.stage = .loading ∧ ∀ r, (health r t).2.status = 503 := by
  intro s o
  have hstart : s.loader = .start := rfl
  obtain ⟨t, ht, hcounted, hloader⟩ := reaches_finished hstart (load s.source s.layout s.disk)
    [.call, .step 0, .step 0, .step 0, .cancel 0] [.cancelled] rfl
  have hstage : t.stage = .loading := by
    rw [Service.stage, hloader]
    rfl
  refine ⟨by decide +kernel, t, .inl hstart, ht, hcounted, by rw [hloader], by rw [hloader], hstage,
    fun r => ?_⟩
  rw [health, hstage]
  rfl

end GlyphSearch.Service
