/-
Where a limit on the number of steps ends a run.

The limit is looked at after a step, and only of a machine that still runs, so the step that uses
the limit up may still be the one that halts or fails.  It is compared with the count of all steps
the machine has ever taken.  That count grows by one with every step of a running machine, so a
limit above it is met exactly and not overstepped, and a run that stopped at one limit goes on to
a greater one as if it had not been interrupted.
-/
import TimeTape.Proofs.Pointers
import TimeTape.Proofs.Runs

namespace TimeTape.Machine

variable {code : Bytes} {m : Machine} {limit : UInt64} {k : Nat}

/-! ### Going on -/

theorem isOver_of_stopped (h : m.status ≠ .running) : m.isOver limit = true := by
  simp [isOver, h]

/-- A run goes on exactly while the machine runs and has not come to the limit. -/
theorem isOver_eq_false_iff (hlimit : 0 < limit) :
    m.isOver limit = false ↔ m.status = .running ∧ m.steps < limit := by
  simp [isOver, atLimit, hlimit]

theorem pos_of_lt {a b : UInt64} (h : a < b) : 0 < b := by
  rw [UInt64.lt_iff_toNat_lt] at h ⊢
  rw [UInt64.toNat_zero]
  omega

/-- A machine that runs has been running all along. -/
theorem running_of_le {j : Nat} (h : (stepMany k m).status = .running) (hj : j ≤ k) :
    (stepMany j m).status = .running := by
  by_contra hstopped
  obtain ⟨i, rfl⟩ : ∃ i, k = j + i := ⟨k - j, by omega⟩
  rw [stepMany_add, stepMany_of_stopped hstopped] at h
  exact hstopped h

theorem Reached.later (h : Reached code m) (k : Nat) : Reached code (stepMany k m) :=
  stepMany_induction (fun _ h => h.step) h k

/-- The machines of a history run, and stand inside the program. -/
theorem Reached.of_mem_history (h : Reached code m) {n : Nat} {m' : Machine}
    (hmem : m' ∈ history n m) : m'.status = .running ∧ Inside code m' := by
  obtain ⟨j, -, rfl, hrunning⟩ := mem_history.mp hmem
  exact ⟨hrunning, (h.later j).running hrunning⟩

/-- A step counts itself, unless the machine has stopped before it. -/
theorem Reached.steps_step (h : Reached code m) :
    m.step.steps = if m.status = .running then m.steps + 1 else m.steps := by
  by_cases hrunning : m.status = .running
  · rw [if_pos hrunning, step_steps (h.running hrunning).cell hrunning]
  · rw [if_neg hrunning, step_of_stopped hrunning]

theorem toNat_add_one {a b : UInt64} (h : a < b) : (a + 1).toNat = a.toNat + 1 := by
  have hb := b.toNat_lt
  rw [UInt64.lt_iff_toNat_lt] at h
  rw [UInt64.toNat_add, UInt64.toNat_one, Nat.mod_eq_of_lt (by omega)]

/-- A step from below the limit does not go beyond it. -/
theorem Reached.steps_step_le (h : Reached code m) (hlt : m.steps < limit) :
    m.step.steps ≤ limit := by
  rw [h.steps_step]
  split
  · rw [UInt64.le_iff_toNat_le, toNat_add_one hlt]
    exact UInt64.lt_iff_toNat_lt.mp hlt
  · exact UInt64.le_of_lt hlt

/-! ### A run with a limit ends -/

/-- A run ends within as many steps as are left up to the limit. -/
theorem Reached.exists_overAfter (h : Reached code m) (hlt : m.steps < limit) :
    ∃ k ≤ limit.toNat - m.steps.toNat, OverAfter limit m k := by
  generalize hroom : limit.toNat - m.steps.toNat = room
  have hpos : 0 < room := by
    rw [UInt64.lt_iff_toNat_lt] at hlt
    omega
  induction room generalizing m with
  | zero => omega
  | succ room ih =>
      by_cases hover : m.step.isOver limit = true
      · exact ⟨1, by omega, overAfter_one hover⟩
      · have hgoes : m.step.isOver limit = false := by simpa using hover
        obtain ⟨hrunning, hstep⟩ := (isOver_eq_false_iff (pos_of_lt hlt)).mp hgoes
        have hcount : m.step.steps = m.steps + 1 := by
          rw [h.steps_step, if_pos (running_of_step hrunning)]
        have hone := toNat_add_one hlt
        rw [← hcount] at hone
        have hleft := UInt64.lt_iff_toNat_lt.mp hstep
        obtain ⟨k, hk, hrest⟩ := ih h.step hstep (by omega) (by omega)
        exact ⟨k + 1, by omega, hrest.later hgoes⟩

namespace OverAfter

/-- Until the run is over, the limit has not been used up. -/
theorem steps_lt (h : OverAfter limit m k) (hlt : m.steps < limit) {j : Nat} (hj : j < k) :
    (stepMany j m).steps < limit := by
  by_cases hzero : j = 0
  · rw [hzero]
    exact hlt
  · have hgoes := h.before j (Nat.pos_of_ne_zero hzero) hj
    exact ((isOver_eq_false_iff (pos_of_lt hlt)).mp hgoes).2

/-- When the run is over the limit has been met at most, and exactly if the machine still runs. -/
theorem steps_le (h : OverAfter limit m k) (hreached : Reached code m) (hlt : m.steps < limit) :
    (stepMany k m).steps ≤ limit ∧
      ((stepMany k m).status = .running → (stepMany k m).steps = limit) := by
  obtain ⟨j, rfl⟩ : ∃ j, k = j + 1 := ⟨k - 1, by have := h.pos; omega⟩
  have hle : (stepMany (j + 1) m).steps ≤ limit := by
    rw [stepMany_succ]
    exact (hreached.later j).steps_step_le (h.steps_lt hlt (Nat.lt_succ_self j))
  refine ⟨hle, ?_⟩
  intro hrunning
  have hmet : ¬(stepMany (j + 1) m).steps < limit := by
    intro hbelow
    have hgoes := (isOver_eq_false_iff (pos_of_lt hlt)).mpr ⟨hrunning, hbelow⟩
    exact absurd h.ends (by simp [hgoes])
  exact UInt64.le_antisymm hle (UInt64.not_lt.mp hmet)

/-- A run is over only once. -/
theorem unique {l : Nat} (h : OverAfter limit m k) (h' : OverAfter limit m l) : k = l := by
  rcases Nat.lt_trichotomy k l with hlt | heq | hgt
  · exact absurd h.ends (by simp [h'.before k h.pos hlt])
  · exact heq
  · exact absurd h'.ends (by simp [h.before l h'.pos hgt])

/-- A run that goes on for `k` steps is over as soon as the rest of it is. -/
theorem join {l : Nat} (hgoes : ∀ j, 0 < j → j ≤ k → (stepMany j m).isOver limit = false)
    (h : OverAfter limit (stepMany k m) l) : OverAfter limit m (k + l) := by
  refine ⟨Nat.add_pos_right k h.pos, ?_, ?_⟩
  · rw [stepMany_add]
    exact h.ends
  · intro j hpos hlt
    by_cases hj : j ≤ k
    · exact hgoes j hpos hj
    · obtain ⟨i, rfl⟩ : ∃ i, j = k + i := ⟨j - k, by omega⟩
      rw [stepMany_add]
      exact h.before i (by omega) (by omega)

end OverAfter

/-! ### Where a run from the start ends -/

section Start

variable {options : Options} {source : Source} {sink : Sink}

/-- What a run reaches from the start, it reaches in as many steps as have been counted. -/
theorem stepMany_steps {n : Nat} (hn : n < UInt64.size) :
    stepMany (stepMany n (start code options source sink)).steps.toNat
        (start code options source sink)
      = stepMany n (start code options source sink) := by
  induction n with
  | zero => simp [stepMany, start]
  | succ n ih =>
      by_cases hrunning : (stepMany n (start code options source sink)).status = .running
      · have hcount := steps_of_running (k := n + 1)
          fun j hj => running_of_le hrunning (Nat.le_of_lt_succ hj)
        rw [hcount, UInt64.toNat_ofNat_of_lt' hn]
      · rw [stepMany_succ, step_of_stopped hrunning]
        exact ih (Nat.lt_of_succ_lt hn)

/-- A run that is over with its machine still running has taken as many steps as the limit says. -/
theorem OverAfter.eq_limit (h : OverAfter limit (start code options source sink) k)
    (hlimit : 0 < limit)
    (hrunning : (stepMany k (start code options source sink)).status = .running)
    (hk : k ≤ limit.toNat) : k = limit.toNat := by
  have hmet := (h.steps_le (start_reached code options source sink)
    (by simpa [start] using hlimit)).2 hrunning
  have hcount := steps_of_running (k := k) fun j hj => running_of_le hrunning (Nat.le_of_lt hj)
  have hword := limit.toNat_lt
  rw [← hmet, hcount, UInt64.toNat_ofNat_of_lt' (Nat.lt_of_le_of_lt hk hword)]

/-- The status in which a run stops is the only one in which a step up to the limit stops. -/
theorem OverAfter.stopped_iff (h : OverAfter limit (start code options source sink) k)
    (hlimit : 0 < limit) (hk : k ≤ limit.toNat) {status : Status} (hstopped : status ≠ .running) :
    (stepMany k (start code options source sink)).status = status ↔
      ∃ j, 0 < j ∧ j ≤ limit.toNat ∧ (stepMany j (start code options source sink)).status = status := by
  constructor
  · intro hstatus
    exact ⟨k, h.pos, hk, hstatus⟩
  · rintro ⟨j, hpos, hj, rfl⟩
    by_cases hjk : j < k
    · -- Before the run was over, no step has stopped the machine.
      have hgoes := h.before j hpos hjk
      exact absurd ((isOver_eq_false_iff hlimit).mp hgoes).1 hstopped
    · obtain ⟨i, rfl⟩ : ∃ i, j = k + i := ⟨j - k, by omega⟩
      by_cases hrunning : (stepMany k (start code options source sink)).status = .running
      · have hall := h.eq_limit hlimit hrunning hk
        obtain rfl : i = 0 := by omega
        rfl
      · rw [stepMany_add, stepMany_of_stopped hrunning]

end Start

theorem ending_eq_halted : m.ending = .halted ↔ m.status = .halted := by
  cases hs : m.status <;> simp [ending, hs]

theorem ending_eq_failed {f : Failure} : m.ending = .failed f ↔ m.status = .failed f := by
  cases hs : m.status <;> simp [ending, hs]

theorem ending_eq_stepLimit {steps : UInt64} :
    m.ending = .stepLimit steps ↔ m.status = .running ∧ m.steps = steps := by
  cases hs : m.status <;> simp [ending, hs]

/--
**A run stops where it should.**  With a limit on its steps, a run from the start ends.  It ends in
a halt exactly when one of the steps up to the limit halts, that last one included, and in a failure
exactly when one of them fails so.  Otherwise all of them leave the machine running, and then the
limit ends the run, with just that many steps taken.  In every case the machine is the one that the
steps it has counted make of the first one.
-/
theorem run_stops_at_limit (code : Bytes) (options : Options) (source : Source) (sink : Sink)
    (limit : UInt64) (hlimit : 0 < limit) :
    let first := start code options source sink
    ∃ last ending,
      (∀ fuel, limit.toNat ≤ fuel → first.runUnless false limit fuel = (last, ending)) ∧
      (ending = .halted ↔
        ∃ k, 0 < k ∧ k ≤ limit.toNat ∧ (stepMany k first).status = .halted) ∧
      (∀ f, ending = .failed f ↔
        ∃ k, 0 < k ∧ k ≤ limit.toNat ∧ (stepMany k first).status = .failed f) ∧
      (ending = .stepLimit limit ↔
        ∀ k, 0 < k → k ≤ limit.toNat → (stepMany k first).status = .running) ∧
      (ending = .stepLimit limit → last.steps = limit ∧ last.status = .running) ∧
      last = stepMany last.steps.toNat first := by
  intro first
  have hreached : Reached code first := start_reached code options source sink
  have hsteps : first.steps = 0 := by simp [first, start]
  have hlt : first.steps < limit := by rwa [hsteps]
  obtain ⟨k, hk, hover⟩ := hreached.exists_overAfter hlt
  rw [hsteps, UInt64.toNat_zero, Nat.sub_zero] at hk
  refine ⟨stepMany k first, (stepMany k first).ending, ?_, ?_, ?_, ?_, ?_, ?_⟩
  · intro fuel hfuel
    exact run_of_overAfter hover (Nat.le_trans hk hfuel)
  · rw [ending_eq_halted]
    exact hover.stopped_iff hlimit hk (by simp)
  · intro f
    rw [ending_eq_failed]
    exact hover.stopped_iff hlimit hk (by simp)
  · rw [ending_eq_stepLimit]
    constructor
    · intro hlimited j hpos hj
      have hrunning := hlimited.1
      rw [← hover.eq_limit hlimit hrunning hk] at hj
      exact running_of_le hrunning hj
    · intro hall
      have hrunning := hall k hover.pos hk
      exact ⟨hrunning, (hover.steps_le hreached hlt).2 hrunning⟩
  · intro hlimited
    obtain ⟨hrunning, hmet⟩ := ending_eq_stepLimit.mp hlimited
    exact ⟨hmet, hrunning⟩
  · exact (stepMany_steps (Nat.lt_of_le_of_lt hk limit.toNat_lt)).symm

/--
The program `+++R` takes seven steps there and back.  A limit of six ends its run, and with a limit
of seven it halts in its last step.
-/
theorem run_stops_at_limit_of_turn :
    let first := start [0x2B, 0x2B, 0x2B, 0x52] {} {} {}
    (stepMany 6 first).status = .running ∧ (stepMany 7 first).status = .halted ∧
      (∃ last, (∀ fuel, 6 ≤ fuel → first.runUnless false 6 fuel = (last, .stepLimit 6)) ∧
        last.steps = 6) ∧
      ∃ last, ∀ fuel, 7 ≤ fuel → first.runUnless false 7 fuel = (last, .halted) := by
  refine ⟨by decide +kernel, by decide +kernel, ?_, ?_⟩
  · obtain ⟨last, ending, hrun, -, -, hlimited, hsteps, -⟩ :=
      run_stops_at_limit [0x2B, 0x2B, 0x2B, 0x52] {} {} {} 6 (by decide)
    have hending : ending = .stepLimit 6 := by
      refine hlimited.mpr ?_
      intro k _ hk
      exact running_of_le (k := 6) (by decide +kernel) hk
    rw [hending] at hrun hsteps
    exact ⟨last, hrun, (hsteps rfl).1⟩
  · obtain ⟨last, ending, hrun, hhalted, -⟩ :=
      run_stops_at_limit [0x2B, 0x2B, 0x2B, 0x52] {} {} {} 7 (by decide)
    have hending : ending = .halted := hhalted.mpr ⟨7, by decide, by decide, by decide +kernel⟩
    rw [hending] at hrun
    exact ⟨last, hrun⟩

/-! ### Going on to a greater limit -/

/-- A run that goes on with one limit goes on with any greater one. -/
theorem isOver_of_lt {a b : UInt64} (ha : 0 < a) (hab : a < b) (h : m.isOver a = false) :
    m.isOver b = false := by
  obtain ⟨hrunning, hlt⟩ := (isOver_eq_false_iff ha).mp h
  exact (isOver_eq_false_iff (pos_of_lt hab)).mpr ⟨hrunning, UInt64.lt_trans hlt hab⟩

/-- A run with a limit ends at some step, whatever more fuel it has, and within the limit. -/
theorem Reached.exists_run (h : Reached code m) (hlt : m.steps < limit) :
    ∃ k, OverAfter limit m k ∧ (stepMany k m).steps ≤ limit ∧
      ∀ fuel, limit.toNat ≤ fuel → m.run limit fuel = (stepMany k m, (stepMany k m).ending) := by
  obtain ⟨k, hk, hover⟩ := h.exists_overAfter hlt
  refine ⟨k, hover, (hover.steps_le h hlt).1, ?_⟩
  intro fuel hfuel
  exact run_of_overAfter hover (by omega)

/-- Where a run with a limit has stopped, a run with a greater one ends as it would have anyway. -/
theorem Reached.run_resumed (h : Reached code m) {a b : UInt64} (ha : m.steps < a) (hab : a < b)
    {fuel : Nat} (hfuel : b.toNat ≤ fuel) : (m.run a fuel).1.run b fuel = m.run b fuel := by
  have hnat := UInt64.lt_iff_toNat_lt.mp hab
  obtain ⟨k, hover, hle, hrun⟩ := h.exists_run ha
  have hbelow : (stepMany k m).steps < b := UInt64.lt_of_le_of_lt hle hab
  obtain ⟨l, hrest, -, hrunRest⟩ := (h.later k).exists_run hbelow
  have hgoes : ∀ j, 0 < j → j < k → (stepMany j m).isOver b = false :=
    fun j hpos hj => isOver_of_lt (pos_of_lt ha) hab (hover.before j hpos hj)
  obtain ⟨n, hwhole, -, hrunWhole⟩ := h.exists_run (UInt64.lt_trans ha hab)
  rw [hrun fuel (by omega), hrunRest fuel hfuel, hrunWhole fuel hfuel]
  by_cases hrunning : (stepMany k m).status = .running
  · have hjoined : OverAfter b m (k + l) := by
      refine OverAfter.join ?_ hrest
      intro j hpos hj
      by_cases hjk : j < k
      · exact hgoes j hpos hjk
      · obtain rfl : j = k := by omega
        exact (isOver_eq_false_iff (pos_of_lt hab)).mpr ⟨hrunning, hbelow⟩
    rw [hwhole.unique hjoined, stepMany_add]
  · -- The machine has stopped for good, and the greater limit does not come into it.
    have hsame : OverAfter b m k := ⟨hover.pos, isOver_of_stopped hrunning, hgoes⟩
    rw [hwhole.unique hsame, stepMany_of_stopped hrunning]

/-- Runs with one limit after the other, each from where the one before it has stopped. -/
def runInTurn (fuel : Nat) (m : Machine) : List UInt64 → Machine × List Ending
  | [] => (m, [])
  | limit :: rest =>
    let (m, ending) := m.runUnless false limit fuel
    let (m, endings) := runInTurn fuel m rest
    (m, ending :: endings)

/-- The last of several runs ends as that run alone would have. -/
theorem Reached.runInTurn_eq (h : Reached code m) {limits : List UInt64} {last : UInt64}
    (hlast : limits.getLast? = some last) (hascending : (m.steps :: limits).Pairwise (· < ·))
    {fuel : Nat} (hfuel : last.toNat ≤ fuel) :
    (runInTurn fuel m limits).1 = (m.run last fuel).1 ∧
      (runInTurn fuel m limits).2.getLast? = some (m.run last fuel).2 := by
  induction limits generalizing m with
  | nil => simp at hlast
  | cons limit rest ih =>
      obtain ⟨hfirst, hrest⟩ := List.pairwise_cons.mp hascending
      obtain ⟨hlimit, hlater⟩ := List.pairwise_cons.mp hrest
      cases rest with
      | nil =>
          obtain rfl : limit = last := by simpa using hlast
          exact ⟨rfl, rfl⟩
      | cons next rest =>
          have hlast' : (next :: rest).getLast? = some last := by simpa using hlast
          have hbelow : m.steps < limit := hfirst limit (by simp)
          have habove : limit < last := hlimit last (List.mem_of_getLast? hlast')
          have hnat := UInt64.lt_iff_toNat_lt.mp habove
          obtain ⟨k, -, hle, hends⟩ := h.exists_run hbelow
          have hrun := hends fuel (by omega)
          have hgoesOn : ((stepMany k m).steps :: next :: rest).Pairwise (· < ·) := by
            refine List.pairwise_cons.mpr ⟨?_, hlater⟩
            intro l hl
            exact UInt64.lt_of_le_of_lt hle (hlimit l hl)
          have hsame := h.run_resumed hbelow habove hfuel
          rw [hrun] at hsame
          obtain ⟨hmachine, hending⟩ := ih (h.later k) hlast' hgoesOn
          rw [hsame] at hmachine hending
          have hfold : runInTurn fuel m (limit :: next :: rest)
              = ((runInTurn fuel (stepMany k m) (next :: rest)).1,
                (stepMany k m).ending :: (runInTurn fuel (stepMany k m) (next :: rest)).2) := by
            rw [runInTurn, runUnless_false, hrun]
          rw [hfold]
          refine ⟨hmachine, ?_⟩
          rw [List.getLast?_cons, hending]
          rfl

/--
**A limit that has been reached leaves no trace.**  From a machine that a run of a program has
reached, let runs be made in turn with limits that grow from the number of steps already taken.
The last of them ends, and in the same way and with the same machine as if it had been the only one.
-/
theorem limits_leave_no_trace (code : Bytes) (options : Options) (source : Source) (sink : Sink)
    (n : Nat) (limits : List UInt64) (last : UInt64) (hlast : limits.getLast? = some last) :
    let m := stepMany n (start code options source sink)
    (m.steps :: limits).Pairwise (· < ·) →
      ∃ m' ending, ending ≠ .outOfFuel ∧ ∀ fuel, last.toNat ≤ fuel →
        m.runUnless false last fuel = (m', ending) ∧
        (runInTurn fuel m limits).1 = m' ∧
        (runInTurn fuel m limits).2.getLast? = some ending := by
  intro m hascending
  have hreached : Reached code m := reached code options source sink n
  have hlt : m.steps < last :=
    (List.pairwise_cons.mp hascending).1 last (List.mem_of_getLast? hlast)
  obtain ⟨k, -, -, hrun⟩ := hreached.exists_run hlt
  refine ⟨stepMany k m, (stepMany k m).ending, ?_, ?_⟩
  · cases hs : (stepMany k m).status <;> simp [ending, hs]
  · intro fuel hfuel
    obtain ⟨hmachine, hending⟩ := hreached.runInTurn_eq hlast hascending hfuel
    rw [hrun fuel hfuel] at hmachine hending
    exact ⟨hrun fuel hfuel, hmachine, hending⟩

/--
The program `+++R` is stopped after its second step, and then run to the limits four, six and nine.
The first two interrupt it, and it halts in its seventh step.
-/
theorem limits_leave_no_trace_of_turn :
    let m := stepMany 2 (start [0x2B, 0x2B, 0x2B, 0x52] {} {} {})
    (m.steps :: [4, 6, 9]).Pairwise (· < ·) ∧
      (runInTurn 9 m [4, 6, 9]).2 = [.stepLimit 4, .stepLimit 6, .halted] ∧
      ∃ m' ending, ending ≠ .outOfFuel ∧ ∀ fuel, 9 ≤ fuel →
        m.runUnless false 9 fuel = (m', ending) ∧ (runInTurn fuel m [4, 6, 9]).1 = m' ∧
        (runInTurn fuel m [4, 6, 9]).2.getLast? = some ending :=
  ⟨by decide +kernel, by decide +kernel,
    limits_leave_no_trace [0x2B, 0x2B, 0x2B, 0x52] {} {} {} 2 [4, 6, 9] 9 rfl
      (by decide +kernel)⟩

end TimeTape.Machine
