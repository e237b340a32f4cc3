import GlyphSearch.Program.Run

/-!
# What a program leaves behind

As long as the temporary directory is there, it has an owner: a job that works
in it, or the loader with the dataset that was loaded from it. `Owned` tells
this. A program that ends with the code of success has closed the loader and
waited for the job, so nothing is left. One whose warmup has failed does not
wait. Then the load has failed, and no job is left, or it has run out of time,
and a job may still go on. What this job has made is left behind.
-/

namespace GlyphSearch.Program

/-! ## Phases and work -/

namespace Phase

/-- Whether the tasks of the program still go on. -/
def hasTasks : Phase → Bool
  | serving | stopping | closed => true
  | leaving | exited _ => false

@[simp]
theorem hasLoader_stop (p : Phase) : p.stop.hasLoader = p.hasLoader := by
  cases p <;> rfl

@[simp]
theorem hasLoader_release (p : Phase) : p.release.hasLoader = p.hasLoader := by
  cases p <;> rfl

@[simp]
theorem hasTasks_stop (p : Phase) : p.stop.hasTasks = p.hasTasks := by
  cases p <;> rfl

@[simp]
theorem hasTasks_release (p : Phase) : p.release.hasTasks = p.hasTasks := by
  cases p <;> rfl

theorem release_eq_exited {p : Phase} {code : Nat} (h : p.release = .exited code) :
    p = .exited code ∨ (p = .leaving ∧ code = 0) := by
  cases p with
  | leaving => exact .inr ⟨rfl, (Phase.exited.inj h).symm⟩
  | exited => exact .inl h
  | serving | stopping | closed => cases h

theorem stop_eq_exited {p : Phase} {code : Nat} (h : p.stop = .exited code) :
    p = .exited code := by
  cases p with
  | exited => exact h
  | serving | stopping | closed | leaving => cases h

end Phase

theorem Work.holdsDirectory_of_idle {w : Work} (h : w.isGoingOn = false) :
    w.holdsDirectory = false := by
  cases w with
  | ahead | finished => rfl
  | waiting job | running job => cases h

namespace Ending

variable {e t : Ending}

/-! ## One step -/

/-- What an event may do. -/
inductive Move (e : Ending) : Ending → Prop
  | stays : Move e e
  | asks {job : Job} (hload : e.load = .pending) (hwork : e.work = .ahead)
      (hjob : job.holdsDirectory = false) : Move e { e with work := .waiting job }
  | begins {job : Job} (hwork : e.work = .waiting job) : Move e { e with work := .running job }
  | makes (hwork : e.work = .running (.extract false)) :
      Move e { e with work := .running (.extract true), directory := true }
  | extracts (hwork : e.work = .running (.extract true)) :
      Move e { e with work := .waiting (.open true) }
  | opens {temporary : Bool} (hload : e.load = .pending)
      (hwork : e.work = .running (.open temporary)) :
      Move e ({ e with load := .succeeded }.endWork (e.directory && e.phase.hasLoader))
  | fails (hload : e.load = .pending) : Move e ({ e with load := .failed }.endWork false)
  | drops : Move e (e.endWork false)
  | failsEarly (hload : e.load = .pending) (hwork : e.work = .ahead) :
      Move e { e with load := .failed }
  | timesOut (hload : e.load = .pending) : Move e { e with load := .timedOut }
  | hearsSuccess (hwaiting : e.warmup = .waiting) (hload : e.load = .succeeded) :
      Move e { e with warmup := .succeeded }
  | hearsFailure (hwaiting : e.warmup = .waiting) (hload : e.load = .failed ∨ e.load = .timedOut) :
      Move e { e with warmup := .failed, phase := e.phase.stop }
  | interrupted : Move e { e with phase := e.phase.stop }
  | closes (hphase : e.phase = .stopping) : Move e e.close
  | exits (hphase : e.phase = .closed) (hfailed : e.warmup = .failed) :
      Move e { e with phase := .exited 1 }
  | leaves (hphase : e.phase = .closed) (hfailed : e.warmup ≠ .failed) :
      Move e { e with
        load := if e.load = .pending then .dropped else e.load
        phase := if e.work.isGoingOn then .leaving else .exited 0 }

theorem move_succeed {job : Job} (hwork : e.work = .running job) (hmade : job ≠ .extract false) :
    Move e (e.succeed job) := by
  rw [succeed.eq_def]
  split
  · next made _ =>
      cases made with
      | false => exact absurd rfl hmade
      | true => exact .extracts hwork
  · next hload => exact .opens hload hwork
  · exact .drops

theorem move_fail (e : Ending) : Move e e.fail := by
  rw [fail]
  split
  · next hload => exact .fails hload
  · exact .drops

theorem move_hear (hwaiting : e.warmup = .waiting) : Move e e.hear := by
  rw [hear]
  split
  · next hload => exact .hearsSuccess hwaiting hload
  · next hload => exact .hearsFailure hwaiting (.inl hload)
  · next hload => exact .hearsFailure hwaiting (.inr hload)
  · exact .stays
  · exact .stays

theorem move_quit (hphase : e.phase = .closed) : Move e e.quit := by
  rw [quit]
  split
  · next hfailed => exact .exits hphase hfailed
  · next hfailed => exact .leaves hphase hfailed

theorem move_step (e : Ending) (event : Event) : Move e (e.step event) := by
  cases event with
  | ask extracts =>
      rw [step]
      split
      · next h => exact .asks h.1 h.2 (by cases extracts <;> rfl)
      · exact .stays
  | begin =>
      rw [step]
      split
      · next hwork =>
          split
          · exact .begins hwork
          · exact .stays
      · exact .stays
  | make =>
      rw [step]
      split
      · next h => exact .makes h.2
      · exact .stays
  | finish isGood =>
      rw [step]
      split
      · next job hwork =>
          split
          · exact .stays
          · next hgoes =>
              split
              · next hgood => exact move_succeed hwork fun hjob => hgoes (.inr ⟨hgood, hjob⟩)
              · exact move_fail e
      · exact .stays
  | discard =>
      rw [step]
      split
      · split
        · exact .drops
        · exact .stays
      · exact .stays
  | failLoad =>
      rw [step]
      split
      · next h => exact .failsEarly h.1 h.2
      · exact .stays
  | timeOut =>
      rw [step]
      split
      · next hload => exact .timesOut hload
      · exact .stays
  | hear =>
      rw [step]
      split
      · next hwaiting => exact move_hear hwaiting
      · exact .stays
  | interrupt => exact .interrupted
  | close =>
      rw [step]
      split
      · next hphase => exact .closes hphase
      · exact .stays
  | quit =>
      rw [step]
      split
      · next hphase => exact move_quit hphase
      · exact .stays

/-! ## What steps preserve -/

/-- Whether the temporary directory is there for as long as somebody has it: a
job, or the loader with the dataset. A load that has come to an end by itself
has no job. -/
structure Owned (e : Ending) : Prop where
  directory : e.work.holdsDirectory = true → e.directory = true
  owner : e.directory = true →
    e.work.holdsDirectory = true ∨ (e.load = .succeeded ∧ e.phase.hasLoader = true)
  idle : e.load = .succeeded ∨ e.load = .failed → e.work.isGoingOn = false

theorem owned_of_idle {phase : Phase} {load : LoadState} {warmup : Warmup} {work : Work}
    (h : work.isGoingOn = false) : Owned ⟨phase, load, warmup, work, false⟩ := by
  refine ⟨fun hholds => ?_, nofun, fun _ => h⟩
  rw [Work.holdsDirectory_of_idle h] at hholds
  cases hholds

/-- Without a loader, only a job can have the directory. -/
theorem Owned.job_of_directory (he : e.Owned) (hloader : e.phase.hasLoader = false)
    (h : e.directory = true) : e.work.holdsDirectory = true := by
  refine (he.owner h).resolve_right fun hdataset => ?_
  rw [hdataset.2] at hloader
  cases hloader

theorem Owned.directory_eq_false (he : e.Owned) (hloader : e.phase.hasLoader = false)
    (hidle : e.work.isGoingOn = false) : e.directory = false := by
  refine Bool.eq_false_iff.mpr fun h => ?_
  have hholds := he.job_of_directory hloader h
  rw [Work.holdsDirectory_of_idle hidle] at hholds
  cases hholds

theorem Move.owned (h : Move e t) (he : e.Owned) : t.Owned := by
  have hjob := he.job_of_directory
  obtain ⟨hdirectory, howner, hidle⟩ := he
  cases h with
  | stays => exact ⟨hdirectory, howner, hidle⟩
  | asks hload hwork hjob =>
      constructor <;> simp_all [Work.holdsDirectory]
  | begins hwork =>
      constructor <;> simp_all [Work.holdsDirectory, Work.isGoingOn]
  | makes hwork =>
      constructor <;> simp_all [Work.holdsDirectory, Work.isGoingOn, Job.holdsDirectory]
  | extracts hwork =>
      constructor <;> simp_all [Work.holdsDirectory, Work.isGoingOn, Job.holdsDirectory]
  | opens hload hwork =>
      -- From now on the directory is the loader's, if this is still there.
      constructor <;> simp [endWork, Work.holdsDirectory, Work.isGoingOn]
  | fails hload => exact owned_of_idle rfl
  | drops => exact owned_of_idle rfl
  | failsEarly hload hwork =>
      constructor <;> simp_all [Work.holdsDirectory, Work.isGoingOn]
  | timesOut hload =>
      constructor <;> simp_all
  | hearsSuccess => exact ⟨hdirectory, howner, hidle⟩
  | hearsFailure hwaiting hload =>
      exact ⟨hdirectory, by simpa using howner, hidle⟩
  | interrupted => exact ⟨hdirectory, by simpa using howner, hidle⟩
  | closes hphase =>
      rw [close]
      by_cases hload : e.load = .succeeded
      · simp only [hload, ne_eq, not_true_eq_false, decide_false, Bool.and_false]
        exact owned_of_idle (hidle (.inl hload))
      · simp only [hload, ne_eq, not_false_eq_true, decide_true, Bool.and_true]
        exact ⟨hdirectory, fun h => .inl ((howner h).resolve_right fun h => hload h.1), hidle⟩
  | exits hphase hfailed =>
      exact ⟨hdirectory, fun h => .inl (hjob (by rw [hphase]; rfl) h), hidle⟩
  | leaves hphase hfailed =>
      refine ⟨hdirectory, fun h => .inl (hjob (by rw [hphase]; rfl) h), fun h => hidle ?_⟩
      by_cases hload : e.load = .pending
      · simp [hload] at h
      · simpa [hload] using h

/-- Whether those that wait go on: the load with the tasks of the program, and
the warmup until the loader is closed. The warmup fails only when the load has. -/
structure Attended (e : Ending) : Prop where
  pending : e.load = .pending → e.phase.hasTasks = true
  waiting : e.warmup = .waiting → e.phase.hasLoader = true
  heard : e.warmup = .failed → e.load = .failed ∨ e.load = .timedOut

theorem Move.attended (h : Move e t) (he : e.Attended) : t.Attended := by
  obtain ⟨hpending, hwaiting, hheard⟩ := he
  cases h with
  | stays | asks | begins | makes | extracts => exact ⟨hpending, hwaiting, hheard⟩
  | opens hload =>
      constructor <;> simp_all [endWork]
  | fails hload =>
      constructor <;> simp_all [endWork]
  | drops =>
      constructor <;> simpa [endWork]
  | failsEarly hload =>
      constructor <;> simp_all
  | timesOut hload =>
      constructor <;> simp_all
  | hearsSuccess => exact ⟨by simpa using hpending, nofun, nofun⟩
  | hearsFailure hwait hload =>
      exact ⟨by simpa using hpending, nofun, fun _ => hload⟩
  | interrupted =>
      exact ⟨by simpa using hpending, by simpa using hwaiting, hheard⟩
  | closes hphase =>
      refine ⟨fun _ => rfl, fun h => ?_, fun h => hheard ?_⟩
      · by_cases hwait : e.warmup = .waiting <;> simp_all [close]
      · by_cases hwait : e.warmup = .waiting <;> simp_all [close]
  | exits hphase hfailed =>
      -- A warmup fails with its load, so the load is not cut off here.
      refine ⟨fun h => ?_, fun h => ?_, hheard⟩
      · have hload : e.load = .pending := h
        exact absurd (hheard hfailed) (by simp [hload])
      · exact nomatch hfailed.symm.trans h
  | leaves hphase hfailed =>
      refine ⟨fun h => ?_, fun h => ?_, fun h => absurd h hfailed⟩
      · by_cases hload : e.load = .pending <;> simp [hload] at h
      · have hloader := hwaiting h
        rw [hphase] at hloader
        cases hloader

/-- Whether a program that has ended has told how: by failure if the warmup has
failed, and else by success, when there was no job any more. -/
structure Decided (e : Ending) : Prop where
  leaving : e.phase = .leaving → e.warmup ≠ .failed
  exited : ∀ code, e.phase = .exited code → (code = 1 ∧ e.warmup = .failed) ∨
    (code = 0 ∧ e.warmup ≠ .failed ∧ e.work.isGoingOn = false)

theorem decided_endWork {load : LoadState} {directory : Bool} (he : e.Decided) :
    ({ e with load }.endWork directory).Decided := by
  refine ⟨fun h => ?_, fun code h => ?_⟩
  · have hleaving : e.phase.release = .leaving := h
    cases hphase : e.phase <;> simp [hphase, Phase.release] at hleaving
  · rcases Phase.release_eq_exited h with hexited | ⟨hleaving, rfl⟩
    · rcases he.exited code hexited with hfailed | ⟨rfl, hwarmup, -⟩
      · exact .inl hfailed
      · exact .inr ⟨rfl, hwarmup, rfl⟩
    · exact .inr ⟨rfl, he.leaving hleaving, rfl⟩

/-- A program that has ended with success has no job, so nothing happens to it
there. -/
theorem decided_of_isGoingOn {work : Work} {directory : Bool} (he : e.Decided)
    (hwork : e.work.isGoingOn = true) : Decided { e with work, directory } := by
  refine ⟨he.leaving, fun code h => .inl ((he.exited code h).resolve_right fun hsuccess => ?_)⟩
  rw [hwork] at hsuccess
  exact nomatch hsuccess.2.2

/-- A program with tasks has not ended yet. -/
theorem decided_of_hasTasks (h : e.phase.hasTasks = true) : e.Decided := by
  refine ⟨fun hleaving => ?_, fun code hexited => ?_⟩
  · rw [hleaving] at h
    cases h
  · rw [hexited] at h
    cases h

theorem hasTasks_of_hasLoader {p : Phase} (h : p.hasLoader = true) : p.hasTasks = true := by
  cases p with
  | serving | stopping => rfl
  | closed | leaving | exited => cases h

theorem Move.decided (h : Move e t) (ha : e.Attended) (he : e.Decided) : t.Decided := by
  obtain ⟨hleaving, hexited⟩ := he
  cases h with
  | stays => exact ⟨hleaving, hexited⟩
  | asks hload | failsEarly hload | timesOut hload =>
      exact decided_of_hasTasks (ha.pending hload)
  | begins hwork | makes hwork | extracts hwork =>
      exact decided_of_isGoingOn ⟨hleaving, hexited⟩ (by rw [hwork]; rfl)
  | opens | fails | drops => exact decided_endWork ⟨hleaving, hexited⟩
  | hearsSuccess hwaiting =>
      exact decided_of_hasTasks (hasTasks_of_hasLoader (ha.waiting hwaiting))
  | hearsFailure hwaiting =>
      refine decided_of_hasTasks (hasTasks_of_hasLoader ?_)
      rw [Phase.hasLoader_stop]
      exact ha.waiting hwaiting
  | interrupted =>
      refine ⟨fun h => ?_, fun code h => hexited code (Phase.stop_eq_exited h)⟩
      have hstop : e.phase.stop = .leaving := h
      cases hphase : e.phase <;> simp [hphase, Phase.stop] at hstop
      exact hleaving hphase
  | closes => exact decided_of_hasTasks rfl
  | exits hphase hfailed =>
      refine ⟨nofun, fun code h => .inl ⟨?_, hfailed⟩⟩
      exact (Phase.exited.inj h).symm
  | leaves hphase hfailed =>
      refine ⟨fun _ => hfailed, fun code h => .inr ?_⟩
      cases hwork : e.work.isGoingOn with
      | true => simp [hwork] at h
      | false =>
          simp [hwork] at h
          exact ⟨h.symm, hfailed, rfl⟩

/-! ## Whole runs -/

/-- All that steps preserve. -/
structure Sound (e : Ending) : Prop where
  owned : e.Owned
  attended : e.Attended
  decided : e.Decided

theorem sound_start (warmsUp : Bool) : (start warmsUp).Sound := by
  refine ⟨owned_of_idle rfl, ⟨fun _ => rfl, fun _ => rfl, ?_⟩, decided_of_hasTasks rfl⟩
  cases warmsUp <;> exact nofun

theorem Sound.step (h : e.Sound) (event : Event) : (e.step event).Sound :=
  have hmove := move_step e event
  ⟨hmove.owned h.owned, hmove.attended h.attended, hmove.decided h.attended h.decided⟩

theorem Sound.run (h : e.Sound) (events : List Event) : (e.run events).Sound := by
  induction events generalizing e with
  | nil => exact h
  | cons event events ih => exact ih (h.step event)

/-- A program that has ended has told by its code whether the warmup has failed.
Its temporary directory is left behind if it has failed since the load ran out
of time, and a job still has the directory; and in no other case. -/
theorem directory_left_behind_iff_job_goes_on {warmsUp : Bool} {events : List Event} {code : Nat}
    (h : ((start warmsUp).run events).exitCode? = some code) :
    (code = 1 ↔ ((start warmsUp).run events).warmup = .failed) ∧ (code = 0 ∨ code = 1) ∧
    (((start warmsUp).run events).directory = true ↔
      code = 1 ∧ ((start warmsUp).run events).load = .timedOut ∧
        ((start warmsUp).run events).work.holdsDirectory = true) := by
  have hsound := (sound_start warmsUp).run events
  generalize (start warmsUp).run events = e at h hsound
  have hphase : e.phase = .exited code := by
    rw [exitCode?] at h
    split at h
    · next heq => rw [heq, Option.some.inj h]
    · cases h
  have hloader : e.phase.hasLoader = false := by rw [hphase]; rfl
  rcases hsound.decided.exited code hphase with ⟨rfl, hfailed⟩ | ⟨rfl, hfailed, hidle⟩
  · refine ⟨⟨fun _ => hfailed, fun _ => rfl⟩, .inr rfl, fun h => ⟨rfl, ?_, ?_⟩,
      fun h => hsound.owned.directory h.2.2⟩
    · refine (hsound.attended.heard hfailed).resolve_left fun hload => ?_
      have hnone := hsound.owned.directory_eq_false hloader (hsound.owned.idle (.inr hload))
      rw [h] at hnone
      cases hnone
    · exact hsound.owned.job_of_directory hloader h
  · refine ⟨⟨nofun, fun h => absurd h hfailed⟩, .inl rfl, fun h => ?_, nofun⟩
    rw [hsound.owned.directory_eq_false hloader hidle] at h
    cases h

/-- A program that is interrupted while the dataset is opened waits for that. -/
theorem directory_left_behind_iff_job_goes_on_of_interrupt :
    let events : List Event := [.ask true, .begin, .make, .finish true, .begin, .interrupt, .close,
      .quit, .finish true]
    ((start true).run events).exitCode? = some 0 ∧ ((start true).run events).directory = false := by
  intro events
  have hexit : ((start true).run events).exitCode? = some 0 := by decide
  obtain ⟨-, -, hleft⟩ := directory_left_behind_iff_job_goes_on hexit
  exact ⟨hexit, Bool.eq_false_iff.mpr fun h => nomatch (hleft.mp h).1⟩

/-- The archive is still being extracted when the load runs out of time. The
program ends with the code of failure, and the directory is left behind. -/
theorem directory_left_behind_of_slow_archive :
    let e := (start true).run [.ask true, .begin, .make, .timeOut, .hear, .close, .quit]
    e.exitCode? = some 1 ∧ e.warmup = .failed ∧ e.directory = true := by
  decide

end Ending

/-- What happens to a program with a warmup leads to its end, with the code that
tells whether the dataset could be loaded. -/
theorem exitCode?_of_warmup {p : Program} (h : p.settings.dataset.warmup = true) :
    p.exitCode? = some (if p.hasFailed then 1 else 0) := by
  have hstage : p.hasFailed = decide (p.service.stage = .failed) := by
    rw [hasFailed, h, Bool.true_and]
  rw [hstage, exitCode?, h, course, loadEvents, Service.stage, Loading.Shared.stage]
  cases p.service.loader.published with
  | none => cases p.service.loader.pending <;> rfl
  | some o =>
      cases o with
      | error e => cases e <;> rfl
      | ok d =>
          cases hdirectory : d.directory with
          | none => simp only [hdirectory]; rfl
          | some directory => cases directory <;> simp only [hdirectory] <;> rfl

end GlyphSearch.Program
