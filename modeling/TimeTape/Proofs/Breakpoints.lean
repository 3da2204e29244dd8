/-
Breakpoints do not change a run.

Under breakpoints a run is cut into pieces: it comes back at every breakpoint, is reported and goes
on.  Two flags see to it that every state is looked at once.  Going on after a stop, the state that
was reported is not looked at again; and the state after the last step of a run is not looked at
at all, since the limit and the end of the program come first.

The induction is on the number of steps that are left of the plain run.  A piece that does not stop
here takes one of them.  A piece that does stop is followed by one that goes on from the same
machine, and that one takes the step.  So the rounds that `watch` needs are no more than the steps of
the plain run and one.
-/
import TimeTape.Proofs.Debugger
import TimeTape.Report

namespace TimeTape

open Machine

namespace Report

variable {limit : UInt64} {d : Debugger} {k fuel rounds budget : Nat} {resuming stepDue : Bool}

open Debugger

/-! ### One piece after the other -/

section Terminal

variable {μ : Type → Type} [Monad μ] [LawfulMonad μ] {canceled : Bool} {kept : List Stop}
  {d' : Debugger} {s : Stop} {e : Ending}

theorem watchAt_of_end (h : d.resume canceled limit budget = (d', .ended e)) :
    watchAt (.memory : Terminal μ) canceled limit budget (rounds + 1) kept d
      = pure (d', kept.reverse, e) := by
  have hresume := resumeBy_memory (μ := μ) canceled limit budget d
  rw [h] at hresume
  rw [watchAt, Terminal.memory_step, hresume, pure_bind]

theorem watchAt_of_stop (h : d.resume canceled limit budget = (d', .stopped s)) :
    watchAt (.memory : Terminal μ) canceled limit budget (rounds + 1) kept d
      = watchAt .memory canceled limit budget rounds (s :: kept) d' := by
  have hresume := resumeBy_memory (μ := μ) canceled limit budget d
  rw [h] at hresume
  rw [watchAt, Terminal.memory_step, hresume, pure_bind]
  exact pure_bind (s :: kept) _

/-- The stops that are kept come before those that follow. -/
theorem watchAt_kept (canceled : Bool) (rounds : Nat) (kept : List Stop) (d : Debugger) :
    Id.run (watchAt .memory canceled limit budget rounds kept d)
      = ((watch canceled limit budget rounds d).1,
        kept.reverse ++ (watch canceled limit budget rounds d).2.1,
        (watch canceled limit budget rounds d).2.2) := by
  induction rounds generalizing kept d with
  | zero => simp [watch, watchAt]
  | succ rounds ih =>
      rw [watch]
      rcases h : d.resume canceled limit budget with ⟨d', s | e⟩
      · rw [watchAt_of_stop h, watchAt_of_stop h, ih (s :: kept), ih [s]]
        simp
      · rw [watchAt_of_end h, watchAt_of_end h]
        simp

theorem watch_of_end (h : d.resume canceled limit budget = (d', .ended e)) (rounds : Nat) :
    watch canceled limit budget (rounds + 1) d = (d', [], e) := by
  rw [watch, watchAt_of_end h]
  rfl

theorem watch_of_stop (h : d.resume canceled limit budget = (d', .stopped s)) (rounds : Nat) :
    watch canceled limit budget (rounds + 1) d
      = ((watch canceled limit budget rounds d').1,
        s :: (watch canceled limit budget rounds d').2.1,
        (watch canceled limit budget rounds d').2.2) := by
  rw [watch, watchAt_of_stop h, watchAt_kept]
  rfl

/-- In memory, watching is the same in every monad. -/
theorem watchAt_memory (canceled : Bool) (rounds : Nat) (kept : List Stop) (d : Debugger) :
    watchAt (.memory : Terminal μ) canceled limit budget rounds kept d
      = pure ((watch canceled limit budget rounds d).1,
        kept.reverse ++ (watch canceled limit budget rounds d).2.1,
        (watch canceled limit budget rounds d).2.2) := by
  induction rounds generalizing kept d with
  | zero => simp [watch, watchAt]
  | succ rounds ih =>
      rcases h : d.resume canceled limit budget with ⟨d', s | e⟩
      · rw [watchAt_of_stop h, watch_of_stop h, ih (s :: kept)]
        simp
      · rw [watchAt_of_end h, watch_of_end h]
        simp

end Terminal

/-! ### The whole watch -/

/-- The stops at those of some machines that stand at a place of `breaks`. -/
def stopsAmong (breaks : Int → Bool) (machines : List Machine) : List Stop :=
  (machines.filter (standsAt breaks)).map fun m => ⟨.breakpoint, m.snapshot⟩

/-- Goes on watching after a piece of the run has come back. -/
def proceed (limit : UInt64) (budget rounds : Nat) :
    Debugger × Return → Debugger × List Stop × Ending
  | (d, .ended e) => (d, [], e)
  | (d, .stopped s) =>
    let (d, stops, e) := watch false limit budget rounds d
    (d, s :: stops, e)

theorem watch_succ (limit : UInt64) (budget rounds : Nat) (d : Debugger) :
    watch false limit budget (rounds + 1) d
      = proceed limit budget rounds
          (({ d with paused := false } : Debugger).loop limit budget d.paused false) := by
  show _ = proceed limit budget rounds (d.resume false limit budget)
  rcases h : d.resume false limit budget with ⟨d', s | e⟩
  · exact watch_of_stop h rounds
  · exact watch_of_end h rounds

/-- What is left to watch of a plain run that is over after `k` steps. -/
def Watched (limit : UInt64) (budget k : Nat) : Prop :=
  ∀ (d : Debugger) (fuel rounds : Nat) (stepDue : Bool), d.stepping = false → d.paused = false →
    OverAfter limit d.machine k → k ≤ fuel → k ≤ rounds →
    proceed limit budget rounds (d.loop limit fuel false stepDue)
      = ({ d with machine := stepMany k d.machine }, stopsAmong d.breaksAt (path k d.machine),
        (stepMany k d.machine).ending)

/-- A piece that does not stop here takes a step, and the rest is watched from there. -/
theorem proceed_of_step (hrest : Watched limit budget k) (hstepping : d.stepping = false)
    (hpaused : d.paused = false) (hstop : d.pause? resuming stepDue = none)
    (hover : OverAfter limit d.machine (k + 1)) {fuel rounds : Nat} (hfuel : k ≤ fuel)
    (hrounds : k ≤ rounds) :
    proceed limit budget rounds (d.loop limit (fuel + 1) resuming stepDue)
      = ({ d with machine := stepMany (k + 1) d.machine },
        stopsAmong d.breaksAt (path k d.machine.step), (stepMany (k + 1) d.machine).ending) := by
  rw [loop_of_step hstop]
  rcases hover.first with ⟨rfl, hlast⟩ | ⟨hgoes, hlater⟩
  · rw [if_pos hlast]
    rfl
  · rw [if_neg (by simp [hgoes])]
    exact hrest { d with machine := d.machine.step } fuel rounds true hstepping hpaused hlater hfuel
      hrounds

theorem watched_succ (hrest : Watched limit budget k) (hbudget : k < budget) :
    Watched limit budget (k + 1) := by
  intro d fuel rounds stepDue hstepping hpaused hover hfuel hrounds
  obtain ⟨fuel, rfl⟩ : ∃ n, fuel = n + 1 := ⟨fuel - 1, by omega⟩
  obtain ⟨rounds, rfl⟩ : ∃ n, rounds = n + 1 := ⟨rounds - 1, by omega⟩
  obtain ⟨budget, rfl⟩ : ∃ n, budget = n + 1 := ⟨budget - 1, by omega⟩
  by_cases hstands : standsAt d.breaksAt d.machine = true
  · -- The stop is reported, and the next piece starts from the same machine without looking at it.
    have hstop : d.pause? false stepDue = some (.breakpoint, d) := by
      rw [pause?_eq hstepping]
      simp [hstands]
    have hgoOn : d.pause? true false = none := by
      rw [pause?_eq hstepping]
      simp
    have hsame : ({ d with paused := false } : Debugger) = d := by rw [← hpaused]
    have hwatch := watch_succ limit (budget + 1) rounds { d with paused := true }
    simp only [hsame] at hwatch
    rw [proceed_of_step hrest hstepping hpaused hgoOn hover (by omega) (by omega)] at hwatch
    rw [loop_of_stop hstop, proceed, hwatch, path_succ, stopsAmong, stopsAmong,
      List.filter_cons_of_pos hstands]
    rfl
  · have hstop : d.pause? false stepDue = none := by
      rw [pause?_eq hstepping]
      simp [hstands]
    rw [proceed_of_step hrest hstepping hpaused hstop hover (by omega) (by omega), path_succ,
      stopsAmong, stopsAmong, List.filter_cons_of_neg hstands]

/-- However the plain run is cut into pieces, it comes to the same end. -/
theorem watched (h : k ≤ budget) : Watched limit budget k := by
  induction k with
  | zero =>
      intro d fuel rounds stepDue hstepping hpaused hover
      exact absurd hover.pos (by omega)
  | succ k ih => exact watched_succ (ih (by omega)) (by omega)

/-- A debugger that has not run yet watches a plain run to its end, with a round to spare. -/
theorem watch_of_overAfter (hstepping : d.stepping = false) (hpaused : d.paused = false)
    (hover : OverAfter limit d.machine k) (hbudget : k ≤ budget) (hrounds : k ≤ rounds) :
    watch false limit budget (rounds + 1) d
      = ({ d with machine := stepMany k d.machine }, stopsAmong d.breaksAt (path k d.machine),
        (stepMany k d.machine).ending) := by
  have hsame : ({ d with paused := false } : Debugger) = d := by rw [← hpaused]
  have hwatch := watch_succ limit budget rounds d
  rw [hsame, hpaused] at hwatch
  rw [hwatch]
  exact watched hbudget d budget rounds false hstepping hpaused hover hbudget hrounds

/-! ### Setting the breakpoints -/

/-- Setting breakpoints looks at the program and leaves the machine alone. -/
theorem setAll_congr (d : Debugger) (breakpoints : List Int) {machine : Machine}
    (h : machine.program = d.machine.program) :
    setAll { d with machine } breakpoints
      = (setAll d breakpoints).map fun d => { d with machine } := by
  induction breakpoints generalizing d with
  | nil => rfl
  | cons b rest ih =>
      rw [setAll, setAll, List.foldlM_cons, List.foldlM_cons, Debugger.set,
        Debugger.set, h]
      dsimp only
      by_cases hin : 0 ≤ b ∧ b < d.machine.program.standard.size
      · rw [if_pos hin, if_pos hin]
        exact ih { d with breakpoints := d.breakpoints.insert b true } h
      · rw [if_neg hin, if_neg hin]
        rfl

theorem machine_of_setAll {d' : Debugger} {breakpoints : List Int}
    (h : setAll d breakpoints = .ok d') : d'.machine = d.machine := by
  have hsame : setAll d breakpoints = _ := setAll_congr d breakpoints rfl
  rw [h] at hsame
  exact (congrArg Debugger.machine (Except.ok.inj hsame) :)

/-- Breakpoints in the program can all be set. -/
theorem setAll_eq (breakpoints : List Int) (d : Debugger)
    (hin : ∀ b ∈ breakpoints, 0 ≤ b ∧ b < d.machine.program.standard.size) :
    setAll d breakpoints = .ok { d with
      breakpoints := breakpoints.foldl (fun table b => table.insert b true) d.breakpoints } := by
  induction breakpoints generalizing d with
  | nil => rfl
  | cons b rest ih =>
      obtain ⟨hb, hrest⟩ := List.forall_mem_cons.mp hin
      have hset : d.set b = .ok { d with breakpoints := d.breakpoints.insert b true } := by
        rw [Debugger.set, if_pos hb]
      rw [setAll, List.foldlM_cons, hset]
      exact ih { d with breakpoints := d.breakpoints.insert b true } hrest

theorem getD_foldl_insert (breakpoints : List Int) (table : Std.TreeMap Int Bool) (i : Int) :
    (breakpoints.foldl (fun table b => table.insert b true) table).getD i false
      = (decide (i ∈ breakpoints) || table.getD i false) := by
  induction breakpoints generalizing table with
  | nil => simp
  | cons b rest ih =>
      rw [List.foldl_cons, ih, Std.TreeMap.getD_insert]
      by_cases hi : b = i
      · simp [hi]
      · have hne : i ≠ b := fun h => hi h.symm
        simp [hi, hne]

/-- A debugger on which breakpoints have just been set breaks at these and no others. -/
theorem exists_setAll {m : Machine} {breakpoints : List Int}
    (hin : ∀ b ∈ breakpoints, 0 ≤ b ∧ b < m.program.standard.size) :
    ∃ d, setAll { machine := m } breakpoints = .ok d ∧ d.machine = m ∧ d.stepping = false ∧
      d.paused = false ∧ d.breaksAt = fun i => decide (i ∈ breakpoints) := by
  refine ⟨_, setAll_eq breakpoints { machine := m } hin, rfl, rfl, rfl, ?_⟩
  funext i
  rw [breaksAt, getD_foldl_insert]
  simp

/-! ### Reports -/

section Run

variable {μ : Type → Type} [Monad μ] (canceled : Bool) {config : Config} (code : Bytes)
  (source : Source) (sink : Sink)

theorem runAt_of_refusal (hsome : config.breakpoints ≠ []) {refusal : BreakpointError}
    (hset : setAll { machine := start code config.options source sink } config.breakpoints
      = .error refusal) :
    runAt (.memory : Terminal μ) canceled fuel config code source sink
      = pure (conclude config (start code config.options source sink) ""
          (.badBreakpoint refusal)) := by
  have hcons : config.breakpoints.isEmpty = false := by simpa using hsome
  simp only [runAt, hcons, Bool.false_eq_true, if_false, hset]

variable [LawfulMonad μ]

theorem runAt_of_none (hnone : config.breakpoints = []) :
    let plain := (start code config.options source sink).runUnless canceled config.maxSteps fuel
    runAt (.memory : Terminal μ) canceled fuel config code source sink
      = pure (conclude config plain.1 "" (.ended plain.2)) := by
  have hrun := runUnlessBy_memory (μ := μ) canceled config.maxSteps fuel
    (start code config.options source sink)
  simp only [runAt, Terminal.memory_step, hnone, List.isEmpty_nil, if_true, hrun, pure_bind]

theorem runAt_of_watch (hsome : config.breakpoints ≠ [])
    (hset : setAll { machine := start code config.options source sink } config.breakpoints
      = .ok d) :
    let watched := watch canceled config.maxSteps fuel fuel d
    runAt (.memory : Terminal μ) canceled fuel config code source sink
      = pure (conclude config watched.1.machine (String.join (watched.2.1.map Stop.report))
          (.ended watched.2.2)) := by
  have hcons : config.breakpoints.isEmpty = false := by simpa using hsome
  simp only [runAt, hcons, Bool.false_eq_true, if_false, hset, watchAt_memory, pure_bind,
    List.reverse_nil, List.nil_append]

/-- In memory, running and reporting is the same in every monad. -/
theorem runAt_memory (fuel : Nat) (config : Config) :
    runAt (.memory : Terminal μ) canceled fuel config code source sink
      = pure (Report.run canceled fuel config code source sink) := by
  rw [Report.run]
  by_cases hnone : config.breakpoints = []
  · rw [runAt_of_none canceled code source sink hnone,
      runAt_of_none canceled code source sink hnone, Id.run_pure]
  · cases hset : setAll { machine := start code config.options source sink } config.breakpoints with
    | error refusal =>
        rw [runAt_of_refusal canceled code source sink hnone hset,
          runAt_of_refusal canceled code source sink hnone hset, Id.run_pure]
    | ok d =>
        rw [runAt_of_watch canceled code source sink hnone hset,
          runAt_of_watch canceled code source sink hnone hset, Id.run_pure]

theorem run_without_breakpoints {m : Machine} {e : Ending}
    (hrun : (start code config.options source sink).run config.maxSteps fuel = (m, e)) :
    Report.run false fuel { config with breakpoints := [] } code source sink
      = conclude config m "" (.ended e) := by
  rw [Report.run, runAt_of_none false code source sink rfl, runUnless_false]
  simp only [hrun]
  rfl

theorem run_with_breakpoints (hsome : config.breakpoints ≠ []) {d' : Debugger} {stops : List Stop}
    {e : Ending}
    (hset : setAll { machine := start code config.options source sink } config.breakpoints = .ok d)
    (hwatch : watch false config.maxSteps fuel fuel d = (d', stops, e)) :
    Report.run false fuel config code source sink
      = conclude config d'.machine (String.join (stops.map Stop.report)) (.ended e) := by
  rw [Report.run, runAt_of_watch false code source sink hsome hset, hwatch]
  rfl

end Run

/--
**Breakpoints are transparent, and the stops are the right ones.**  Let all breakpoints be in the
program, and let the plain run end within some fuel.  Then the breakpoints can be set, and with any
more fuel the run under breakpoints ends as well, with the same machine and in the same way.  Its
stops are, in order, the snapshots of those machines of the plain run that stand at a breakpoint,
from the first up to the one before the last step.  The report on it differs from the one without
breakpoints in nothing but the stops, which are written beside the output.
-/
theorem breakpoints_are_transparent (config : Config) (code : Bytes) (source : Source)
    (sink : Sink) (fuel : Nat) (hin : ∀ b ∈ config.breakpoints, 0 ≤ b ∧ b < code.length)
    (hends : ((start code config.options source sink).run config.maxSteps fuel).2 ≠ .outOfFuel) :
    let first := start code config.options source sink
    let plain := first.run config.maxSteps fuel
    ∃ d k, setAll { machine := first } config.breakpoints = .ok d ∧
      OverAfter config.maxSteps first k ∧ plain.1 = stepMany k first ∧
      let stops := stopsAmong (fun i => decide (i ∈ config.breakpoints)) (path k first)
      ∀ more, fuel < more →
        watch false config.maxSteps more more d = ({ d with machine := plain.1 }, stops, plain.2) ∧
        let unwatched := Report.run false more { config with breakpoints := [] } code source sink
        let watched := Report.run false more config code source sink
        watched.exitCode = unwatched.exitCode ∧ watched.machine = unwatched.machine ∧
          watched.complaints = String.join (stops.map Stop.report) ++ unwatched.complaints := by
  intro first plain
  obtain ⟨k, hle, hover⟩ : ∃ k ≤ fuel, OverAfter config.maxSteps first k := exists_overAfter hends
  have hplain : plain = (stepMany k first, (stepMany k first).ending) := run_of_overAfter hover hle
  have hsize : first.program.standard.size = code.length := by
    simp [first, start, Program.ofBytes, Image.ofBytes, Image.size]
  obtain ⟨d, hset, hmachine, hstepping, hpaused, hbreaks⟩ := exists_setAll (hsize ▸ hin)
  refine ⟨d, k, hset, hover, by rw [hplain], ?_⟩
  intro stops more hmore
  have hwatch : watch false config.maxSteps more more d
      = ({ d with machine := plain.1 }, stops, plain.2) := by
    obtain ⟨rounds, rfl⟩ : ∃ n, more = n + 1 := ⟨more - 1, by omega⟩
    rw [← hmachine] at hover
    rw [watch_of_overAfter hstepping hpaused hover (by omega) (by omega), hmachine, hbreaks, hplain]
  have hunwatched := run_without_breakpoints code source sink
    (run_of_overAfter hover (show k ≤ more by omega))
  refine ⟨hwatch, ?_⟩
  intro unwatched watched
  by_cases hnone : config.breakpoints = []
  · have hstops : stops = [] := by simp [stops, stopsAmong, standsAt, hnone]
    have hsame : watched = unwatched := by
      simp only [watched, unwatched, ← hnone]
    rw [hsame, hstops]
    simp
  · have hwatched : watched = _ := run_with_breakpoints code source sink hnone hset hwatch
    have hother : unwatched = _ := hunwatched
    rw [hwatched, hother, hplain]
    exact ⟨rfl, rfl, by simp [conclude]⟩

/--
The program `+{.}` goes round its loop until the limit of six steps is reached, on a breakpoint that
is then not reported again.
-/
theorem breakpoints_are_transparent_in_loop :
    let config : Config :=
      { options := { repeatOnNonZero := true }, maxSteps := 6, breakpoints := [2, 0] }
    let first := start [0x2B, 0x7B, 0x2E, 0x7D] config.options {} {}
    let stops := fun k => stopsAmong (fun i => decide (i ∈ config.breakpoints)) (path k first)
    (first.run 6 10).2 = .stepLimit 6 ∧ (first.run 6 10).1.ip = 2 ∧
      (stops 6).map (fun s => (s.snapshot.steps, s.snapshot.ip)) = [(0, 0), (2, 2), (4, 2)] ∧
      ∃ d k, setAll { machine := first } config.breakpoints = .ok d ∧ OverAfter 6 first k ∧
        ∀ more, 10 < more → watch false 6 more more d
          = ({ d with machine := (first.run 6 10).1 }, stops k, (first.run 6 10).2) := by
  intro config first stops
  refine ⟨by decide +kernel, by decide +kernel, by decide +kernel, ?_⟩
  obtain ⟨d, k, hset, hover, -, hmore⟩ :=
    breakpoints_are_transparent config [0x2B, 0x7B, 0x2E, 0x7D] {} {} 10 (by decide)
      (by decide +kernel)
  exact ⟨d, k, hset, hover, fun more h => (hmore more h).1⟩

end Report

end TimeTape
