/-
A session with the debugger follows the plain run.

Whatever is asked of a debugger, its machine only ever takes steps, so after any session it is a
machine of the plain run.  What has to be shown of the debugger itself is when it stops.  `Drive`
says that of one run under it: which instructions it passes, and what makes it come back.  `Follows`
ties the flag that is kept between the runs to the history of the session: `paused` says that the
last run came back with a stop, and while it is not set the machine has moved on since the latest
stop.  That is why no stop is reported twice.

Instructions are counted by natural numbers here.  The machine's own count of its steps is a word,
and says the same as long as there are fewer than it can hold.
-/
import TimeTape.Proofs.Debugger
import TimeTape.Proofs.Pointers
import TimeTape.Proofs.Sessions

namespace TimeTape.Debugger

open Machine

variable {limit : UInt64} {d d' : Debugger} {resuming stepDue : Bool} {back : Return}
  {k l fuel : Nat}

/-! ### One run under the debugger -/

/--
A run of `d` that has executed `k` instructions and come to `d'`, whether it came back there or was
cut short.  It has gone on from a stop if `resuming` says so.
-/
structure Drive (resuming : Bool) (d : Debugger) (k : Nat) (d' : Debugger) (back : Return) :
    Prop where
  executes : Executes d.machine k d'.machine
  breakpoints : d'.breakpoints = d.breakpoints
  paused : d'.paused = back.stop?.isSome
  /-- No instruction on a breakpoint is executed, but for the first after a stop. -/
  passes : ∀ j < k, d.breaksAt (stepMany j d.machine).ip = true → j = 0 ∧ resuming = true
  /-- A run that comes back after a stop has executed something. -/
  moves : back.cutShort = false → d.machine.status = .running → resuming = true → 0 < k
  stops : ∀ s, back = .stopped s →
    d'.machine.status = .running ∧ s.snapshot = d'.machine.snapshot ∧
      (s.reason = .breakpoint → d.breaksAt d'.machine.ip = true)

/-- A run that is cut short at once. -/
theorem drive_of_outOfFuel (hpaused : d.paused = false) :
    Drive resuming d 0 d (.ended .outOfFuel) := by
  refine ⟨Executes.none _, rfl, hpaused, ?_, ?_, by simp⟩
  · intro j hj
    exact absurd hj (Nat.not_lt_zero j)
  · simp [Return.cutShort, Ending.cutShort]

/-- A stop before anything is executed. -/
theorem drive_of_stop {reason : StopReason}
    (hstop : d.pause? resuming stepDue = some (reason, d')) :
    Drive resuming d 0 { d' with paused := true } (.stopped ⟨reason, d'.machine.snapshot⟩) := by
  obtain ⟨hrunning, rfl, hbreaks, stepping, rfl⟩ := pause?_eq_some hstop
  refine ⟨Executes.none _, rfl, rfl, ?_, ?_, ?_⟩
  · intro j hj
    exact absurd hj (Nat.not_lt_zero j)
  · simp
  · intro s hs
    obtain rfl := Return.stopped.inj hs
    exact ⟨hrunning, rfl, hbreaks⟩

/-- A step, after which the run is over. -/
theorem drive_of_end (hstop : d.pause? resuming stepDue = none) (hpaused : d.paused = false)
    (e : Ending) :
    Drive resuming d (if d.machine.status = .running then 1 else 0)
      { d with machine := d.machine.step } (.ended e) := by
  refine ⟨executes_step d.machine, rfl, hpaused, ?_, ?_, by simp⟩
  · intro j hj hbreaks
    by_cases hrunning : d.machine.status = .running
    · rw [if_pos hrunning] at hj
      obtain rfl : j = 0 := by omega
      exact ⟨rfl, resuming_of_pause? hstop hrunning hbreaks⟩
    · rw [if_neg hrunning] at hj
      exact absurd hj (Nat.not_lt_zero j)
  · intro _ hrunning _
    rw [if_pos hrunning]
    exact Nat.one_pos

/-- A step, after which the run goes on and looks at every breakpoint. -/
theorem Drive.step (hstop : d.pause? resuming stepDue = none)
    (hrunning : d.machine.status = .running)
    (h : Drive false { d with machine := d.machine.step } k d' back) :
    Drive resuming d (k + 1) d' back := by
  refine ⟨?_, h.breakpoints, h.paused, ?_, fun _ _ _ => Nat.succ_pos k, h.stops⟩
  · have hfirst := (Executes.one hrunning).trans h.executes
    rw [Nat.add_comm] at hfirst
    exact hfirst
  · intro j hj hbreaks
    cases j with
    | zero => exact ⟨rfl, resuming_of_pause? hstop hrunning hbreaks⟩
    | succ j =>
        obtain ⟨-, hfalse⟩ := h.passes j (by omega) hbreaks
        simp at hfalse

/-- Every run under the debugger is one of these, however far it gets. -/
theorem exists_drive (hpaused : d.paused = false)
    (h : d.loop limit fuel resuming stepDue = (d', back)) : ∃ k, Drive resuming d k d' back := by
  induction fuel generalizing d resuming stepDue with
  | zero =>
      obtain ⟨rfl, rfl⟩ := Prod.mk.inj h
      exact ⟨0, drive_of_outOfFuel hpaused⟩
  | succ fuel ih =>
      cases hstop : d.pause? resuming stepDue with
      | some stop =>
          rw [loop_of_stop hstop] at h
          obtain ⟨rfl, rfl⟩ := Prod.mk.inj h
          exact ⟨0, drive_of_stop hstop⟩
      | none =>
          rw [loop_of_step hstop] at h
          by_cases hover : d.machine.step.isOver limit = true
          · rw [if_pos hover] at h
            obtain ⟨rfl, rfl⟩ := Prod.mk.inj h
            exact ⟨_, drive_of_end hstop hpaused _⟩
          · rw [if_neg hover] at h
            have hrunning : d.machine.step.status = .running := by
              by_contra hstopped
              exact hover (by simp [isOver, hstopped])
            obtain ⟨k, hrest⟩ := ih (d := { d with machine := d.machine.step }) hpaused h
            exact ⟨k + 1, hrest.step hstop (running_of_step hrunning)⟩

theorem exists_drive_of_resume (h : d.resume false limit fuel = (d', back)) :
    ∃ k, Drive d.paused { d with paused := false } k d' back :=
  exists_drive rfl h

/-! ### A whole session -/

/-- A change that is made or refused on a condition. -/
theorem eq_of_ite {c : Prop} [Decidable c] {breakpoints : Std.TreeMap Int Bool}
    {refusal : BreakpointError}
    (h : (if c then .ok { d with breakpoints } else .error refusal) = Except.ok d') :
    d' = { d with breakpoints } := by
  split at h
  · exact (Except.ok.inj h).symm
  · cases h

/-- A change of the breakpoints changes nothing else. -/
theorem exists_breakpoints_of_edit {e : Edit} (h : d.edit e = .ok d') :
    ∃ breakpoints, d' = { d with breakpoints } := by
  cases e with
  | set index => exact ⟨_, eq_of_ite h⟩
  | remove index => exact ⟨_, eq_of_ite h⟩
  | enable index => exact ⟨_, eq_of_ite h⟩
  | disable index => exact ⟨_, eq_of_ite h⟩
  | clear => exact ⟨∅, (Except.ok.inj h).symm⟩

theorem exists_respond_edit_eq (d : Debugger) (e : Edit) :
    ∃ breakpoints refusal?, d.respond (.edit e) = ({ d with breakpoints }, .edited refusal?) := by
  cases hedit : d.edit e with
  | ok d' =>
      obtain ⟨breakpoints, rfl⟩ := exists_breakpoints_of_edit hedit
      exact ⟨breakpoints, none, respond_of_made hedit⟩
  | error refusal => exact ⟨d.breakpoints, some refusal, respond_of_refusal hedit⟩

/-- What is no change of the breakpoints lets the machine run and sets flags at most. -/
theorem exists_respond_eq (d : Debugger) {request : Request} (h : ∀ e, request ≠ .edit e) :
    ∃ k machine stepping paused, Executes d.machine k machine ∧
      (d.respond request).1 = { d with machine, stepping, paused } := by
  cases request with
  | edit e => exact absurd rfl (h e)
  | stepInto => exact ⟨0, d.machine, true, d.paused, Executes.none _, rfl⟩
  | step => exact ⟨_, d.machine.step, d.stepping, d.paused, executes_step d.machine, rfl⟩
  | run canceled limit fuel =>
      obtain ⟨k, hexec⟩ := exists_executes_runUnless canceled limit fuel d.machine
      exact ⟨k, _, d.stepping, d.paused, hexec, rfl⟩
  | resume canceled limit fuel => exact exists_resume_eq canceled limit fuel d

/-- Whatever is asked of a debugger, its machine executes instructions and nothing else. -/
theorem exists_executes_respond (d : Debugger) (request : Request) :
    ∃ k, Executes d.machine k (d.respond request).1.machine := by
  by_cases hedit : ∃ e, request = .edit e
  · obtain ⟨e, rfl⟩ := hedit
    obtain ⟨breakpoints, refusal?, hrespond⟩ := exists_respond_edit_eq d e
    rw [hrespond]
    exact ⟨0, Executes.none _⟩
  · push Not at hedit
    obtain ⟨k, machine, stepping, paused, hexec, hrespond⟩ := exists_respond_eq d hedit
    rw [hrespond]
    exact ⟨k, hexec⟩

theorem exists_executes_session (d : Debugger) (requests : List Request) :
    ∃ k, Executes d.machine k (d.session requests).1.machine := by
  induction requests generalizing d with
  | nil => exact ⟨0, Executes.none _⟩
  | cons request rest ih =>
      obtain ⟨k, hfirst⟩ := exists_executes_respond d request
      obtain ⟨l, hrest⟩ := ih (d.respond request).1
      exact ⟨k + l, hfirst.trans hrest⟩

theorem reached_session (code : Bytes) (options : Options) (source : Source) (sink : Sink)
    (requests : List Request) :
    Reached code
      (session { machine := start code options source sink } requests).1.machine := by
  obtain ⟨k, hexec⟩ :=
    exists_executes_session { machine := start code options source sink } requests
  rw [hexec.machine]
  exact reached code options source sink k

/--
The session has led from `first` to `d` by executing `k` instructions, and its stops were after
`counts` instructions.
-/
structure Follows (first : Machine) (d : Debugger) (responses : List Response) (k : Nat)
    (counts : List Nat) : Prop where
  executes : Executes first k d.machine
  paused : d.paused = followsStop responses
  stops : (stops responses).map Stop.snapshot = counts.map fun j => (stepMany j first).snapshot
  increasing : counts.Pairwise (· < ·)
  stood : ∀ j ∈ counts, (stepMany j first).status = .running
  reached : ∀ j ∈ counts, j ≤ k
  /-- Unless the machine is still paused, it has moved on since every stop. -/
  left : d.paused = false → ∀ j ∈ counts, j < k

namespace Follows

variable {first m : Machine} {responses : List Response} {counts : List Nat} {response : Response}

/-- What is not answered by a stop or an end leaves the history as it is. -/
theorem other (h : Follows first d responses k counts) (hresponse : response.back? = none)
    (hpaused : d'.paused = d.paused) (hexec : Executes d.machine l d'.machine) :
    Follows first d' (responses ++ [response]) (k + l) counts := by
  refine ⟨h.executes.trans hexec, ?_, ?_, h.increasing, h.stood, ?_, ?_⟩
  · rw [hpaused, h.paused, followsStop_concat_other _ _ hresponse]
  · rw [stops_concat_other _ _ hresponse]
    exact h.stops
  · intro j hj
    exact Nat.le_add_right_of_le (h.reached j hj)
  · intro hnot j hj
    exact Nat.lt_add_right l (h.left (hpaused ▸ hnot) j hj)

/-- A run under the debugger that comes back has left every stop behind. -/
theorem left_of_drive (h : Follows first d responses k counts)
    (hdrive : Drive d.paused { d with paused := false } l d' back) (hback : back.cutShort = false) :
    ∀ j ∈ counts, j < k + l := by
  intro j hj
  have hle := h.reached j hj
  cases hpaused : d.paused with
  | false =>
      have hlt := h.left hpaused j hj
      omega
  | true =>
      by_cases hjk : j = k
      · -- The machine still stands where it stopped, and it was running then.
        have hrunning : d.machine.status = .running := by
          rw [h.executes.machine, ← hjk]
          exact h.stood j hj
        have hpos := hdrive.moves hback hrunning hpaused
        omega
      · omega

/-- A run under the debugger adds its stop, if it has one. -/
theorem resumed (h : Follows first d responses k counts)
    (hdrive : Drive d.paused { d with paused := false } l d' back) (hback : back.cutShort = false) :
    ∃ counts', Follows first d' (responses ++ [.resumed back]) (k + l) counts' := by
  have hexec : Executes first (k + l) d'.machine := h.executes.trans hdrive.executes
  have hleft := h.left_of_drive hdrive hback
  have hpaused : d'.paused = followsStop (responses ++ [.resumed back]) := by
    rw [hdrive.paused, followsStop_concat_resumed]
  have hreached : ∀ j ∈ counts, j ≤ k + l := fun j hj => Nat.le_of_lt (hleft j hj)
  cases back with
  | ended e =>
      refine ⟨counts, hexec, hpaused, ?_, h.increasing, h.stood, hreached, fun _ => hleft⟩
      rw [stops_concat_resumed, Return.stop?, Option.toList_none, List.append_nil]
      exact h.stops
  | stopped s =>
      obtain ⟨hrunning, hsnapshot, -⟩ := hdrive.stops s rfl
      refine ⟨counts ++ [k + l], hexec, hpaused, ?_, ?_, ?_, ?_, ?_⟩
      · rw [stops_concat_resumed, List.map_append, List.map_append, h.stops, Return.stop?,
          Option.toList_some, List.map_singleton, List.map_singleton, hsnapshot, hexec.machine]
      · refine List.pairwise_append.mpr ⟨h.increasing, List.pairwise_singleton _ _, ?_⟩
        intro j hj i hi
        obtain rfl := List.mem_singleton.mp hi
        exact hleft j hj
      · rw [hexec.machine] at hrunning
        simpa [or_imp, forall_and] using ⟨h.stood, hrunning⟩
      · simpa [or_imp, forall_and] using hreached
      · intro hnot
        rw [hdrive.paused] at hnot
        cases hnot

/-- Every request that is not cut short adds to the session. -/
theorem respond (h : Follows first d responses k counts) {request : Request}
    (hrespond : d.respond request = (d', response)) (hdone : response.cutShort = false) :
    ∃ k' counts', Follows first d' (responses ++ [response]) k' counts' := by
  cases request with
  | edit e =>
      obtain ⟨breakpoints, refusal?, hedit⟩ := exists_respond_edit_eq d e
      obtain ⟨rfl, rfl⟩ := Prod.mk.inj (hedit.symm.trans hrespond)
      exact ⟨k + 0, counts, h.other rfl rfl (Executes.none _)⟩
  | stepInto =>
      obtain ⟨rfl, rfl⟩ := Prod.mk.inj hrespond
      exact ⟨k + 0, counts, h.other rfl rfl (Executes.none _)⟩
  | step =>
      obtain ⟨rfl, rfl⟩ := Prod.mk.inj hrespond
      exact ⟨_, counts, h.other rfl rfl (executes_step d.machine)⟩
  | run canceled limit fuel =>
      obtain ⟨rfl, rfl⟩ := Prod.mk.inj hrespond
      obtain ⟨l, hexec⟩ := exists_executes_runUnless canceled limit fuel d.machine
      exact ⟨k + l, counts, h.other rfl rfl hexec⟩
  | resume canceled limit fuel =>
      obtain ⟨rfl, rfl⟩ := Prod.mk.inj hrespond
      cases canceled with
      | true => cases hdone
      | false =>
          obtain ⟨l, hdrive⟩ := exists_drive_of_resume rfl
          exact ⟨k + l, h.resumed hdrive hdone⟩

end Follows

/-- Every session in which nothing is cut short follows the run of its machine. -/
theorem exists_follows (first : Machine) (requests : List Request)
    (hdone : ∀ response ∈ (session { machine := first } requests).2, response.cutShort = false) :
    ∃ k counts, Follows first (session { machine := first } requests).1
      (session { machine := first } requests).2 k counts := by
  induction requests using List.reverseRecOn with
  | nil =>
      refine ⟨0, [], Executes.none first, rfl, rfl, List.Pairwise.nil, ?_, ?_, ?_⟩
      all_goals simp
  | append_singleton requests request ih =>
      rw [session_concat] at hdone ⊢
      obtain ⟨k, counts, h⟩ := ih fun response hr => hdone response (List.mem_append_left _ hr)
      exact h.respond rfl (hdone _ (by simp))

/-! ### The machine's own count -/

section Start

variable {code : Bytes} {options : Options} {source : Source} {sink : Sink}
  {responses : List Response} {counts : List Nat}

/-- The stops show the number of instructions that had been executed. -/
theorem steps_stops (h : Follows (start code options source sink) d responses k counts) :
    (stops responses).map (fun stop => stop.snapshot.steps) = counts.map UInt64.ofNat := by
  have hcounts : ∀ j ∈ counts,
      (stepMany j (start code options source sink)).snapshot.steps = UInt64.ofNat j := by
    intro j hj
    have hle := h.reached j hj
    exact steps_of_running fun i hi => h.executes.running i (by omega)
  calc (stops responses).map (fun stop => stop.snapshot.steps)
      = ((stops responses).map Stop.snapshot).map Snapshot.steps := by rw [List.map_map]; rfl
    _ = counts.map fun j => (stepMany j (start code options source sink)).snapshot.steps := by
        rw [h.stops, List.map_map]; rfl
    _ = counts.map UInt64.ofNat := List.map_congr_left hcounts

theorem pairwise_ofNat (hincreasing : counts.Pairwise (· < ·)) (hle : ∀ j ∈ counts, j ≤ k)
    (hk : k < UInt64.size) : (counts.map UInt64.ofNat).Pairwise (· < ·) := by
  refine List.pairwise_map.mpr (hincreasing.imp_of_mem ?_)
  intro i j hi hj hlt
  rw [UInt64.lt_iff_toNat_lt, UInt64.toNat_ofNat_of_lt' (Nat.lt_of_le_of_lt (hle i hi) hk),
    UInt64.toNat_ofNat_of_lt' (Nat.lt_of_le_of_lt (hle j hj) hk)]
  exact hlt

end Start

/--
**A session follows the plain run.**  Take a machine from its start through any requests, none of
which is cut short.

It has then executed some `k` instructions, as it does by itself, and its count of steps says so.
The stops of the session show the plain run after ever more instructions, and their counts of steps
say so too, as long as a word can count them.  Now let it run under the debugger once more, and
look at it after any number of rounds, whether it has come back by then or will never do.  It has
executed no instruction at an enabled breakpoint but for the first, and that only if the run before
came back with a stop.  If it stops for a breakpoint, it stands at one that is enabled.
-/
theorem session_follows_plain_run (code : Bytes) (options : Options) (source : Source)
    (sink : Sink) (requests : List Request) :
    let first := start code options source sink
    let s := session { machine := first } requests
    (∀ response ∈ s.2, response.cutShort = false) →
    ∃ (k : Nat) (counts : List Nat),
      (Executes first k s.1.machine ∧ s.1.machine.steps = UInt64.ofNat k) ∧
      ((stops s.2).map Stop.snapshot = counts.map (fun j => (stepMany j first).snapshot) ∧
        counts.Pairwise (· < ·) ∧ ∀ j ∈ counts, j ≤ k) ∧
      (k < UInt64.size →
        s.1.machine = stepMany s.1.machine.steps.toNat first ∧
          ((stops s.2).map fun stop => stop.snapshot.steps).Pairwise (· < ·)) ∧
      ∀ (limit : UInt64) (fuel : Nat),
        ∃ l, Executes s.1.machine l (s.1.resume false limit fuel).1.machine ∧
          (s.1.resume false limit fuel).1.breakpoints = s.1.breakpoints ∧
          (∀ stop, (s.1.resume false limit fuel).2 = .stopped stop →
            stop.snapshot = (s.1.resume false limit fuel).1.machine.snapshot ∧
              (stop.reason = .breakpoint → s.1.breaksAt stop.snapshot.ip = true)) ∧
          ∀ j < l, s.1.breaksAt (stepMany j s.1.machine).ip = true →
            j = 0 ∧ followsStop s.2 = true := by
  intro first s hdone
  obtain ⟨k, counts, h⟩ := exists_follows first requests hdone
  have hsteps : s.1.machine.steps = UInt64.ofNat k := by
    rw [h.executes.machine]
    exact steps_of_running h.executes.running
  refine ⟨k, counts, ⟨h.executes, hsteps⟩, ⟨h.stops, h.increasing, h.reached⟩, ?_, ?_⟩
  · intro hk
    constructor
    · rw [hsteps, UInt64.toNat_ofNat_of_lt' hk]
      exact h.executes.machine
    · rw [steps_stops h]
      exact pairwise_ofNat h.increasing h.reached hk
  · intro limit fuel
    obtain ⟨l, hdrive⟩ := exists_drive_of_resume rfl
    refine ⟨l, hdrive.executes, hdrive.breakpoints, ?_, ?_⟩
    · intro stop hstop
      obtain ⟨-, hsnapshot, hbreaks⟩ := hdrive.stops stop hstop
      refine ⟨hsnapshot, ?_⟩
      rw [hsnapshot]
      exact hbreaks
    · intro j hj hbreaks
      obtain ⟨rfl, hpaused⟩ := hdrive.passes j hj hbreaks
      exact ⟨rfl, h.paused ▸ hpaused⟩

/--
A session with the endless loop `+{.}`.  It stops at a breakpoint, after a single step, and at a
breakpoint set meanwhile where it stands, when it comes there again.  From there it runs on to the
limit.  Without a limit it has not come back before it is at the breakpoint once more.
-/
theorem session_follows_plain_run_round_loop :
    let first := start [0x2B, 0x7B, 0x2E, 0x7D] { repeatOnNonZero := true } {} {}
    let requests : List Request :=
      [.edit (.set 2), .resume false 0 9, .stepInto, .resume false 0 9, .edit (.disable 2),
        .edit (.set 3), .resume false 0 9]
    let s := session { machine := first } requests
    ((∀ response ∈ s.2, response.cutShort = false) ∧
      (stops s.2).map (fun stop => (stop.reason, stop.snapshot.steps)) =
        [(.breakpoint, 2), (.step, 3), (.breakpoint, 5)] ∧
      (s.1.resume false 7 9).2.cutShort = false ∧ (s.1.resume false 0 2).2.cutShort = true) ∧
    (∃ k, Executes first k s.1.machine ∧ s.1.machine.steps = UInt64.ofNat k) ∧
    (∃ l, Executes s.1.machine l (s.1.resume false 7 9).1.machine ∧
      ∀ j < l, s.1.breaksAt (stepMany j s.1.machine).ip = true →
        j = 0 ∧ followsStop s.2 = true) ∧
    ∃ l, Executes s.1.machine l (s.1.resume false 0 2).1.machine ∧
      ∀ j < l, s.1.breaksAt (stepMany j s.1.machine).ip = true →
        j = 0 ∧ followsStop s.2 = true := by
  obtain ⟨k, counts, hplain, -, -, h⟩ := session_follows_plain_run [0x2B, 0x7B, 0x2E, 0x7D]
    { repeatOnNonZero := true } {} {}
    [.edit (.set 2), .resume false 0 9, .stepInto, .resume false 0 9, .edit (.disable 2),
        .edit (.set 3), .resume false 0 9] (by decide +kernel)
  obtain ⟨l, hexec, -, -, hpasses⟩ := h 7 9
  obtain ⟨l', hexec', -, -, hpasses'⟩ := h 0 2
  refine ⟨⟨by decide +kernel, by decide +kernel, by decide +kernel, by decide +kernel⟩,
    ⟨k, hplain⟩, ⟨l, hexec, hpasses⟩, l', hexec', hpasses'⟩

end TimeTape.Debugger
