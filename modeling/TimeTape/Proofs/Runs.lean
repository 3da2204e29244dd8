/-
Runs and the steps they take.

`run` looks at the machine after every step and stops at the first that has halted or failed or
used up the limit.  `OverAfter` says which step that is, without fuel: a run that ends does so after
some number of steps, and any fuel that is not less gives the same end.  At least one step is
called for, even of a machine that has stopped before; then it does nothing.  This is about runs in
memory, which come to the same in every monad.

`Executes` counts the instructions only, and not the steps of a machine that has stopped.
-/
import TimeTape.Proofs.Machine

namespace TimeTape.Machine

variable {limit : UInt64} {m : Machine} {k : Nat}

/-- Whether a run that has just taken a step is over. -/
def isOver (limit : UInt64) (m : Machine) : Bool :=
  m.status ≠ .running || m.atLimit limit

/-- How a run that is over has ended. -/
def ending (m : Machine) : Ending :=
  match m.status with
  | .failed f => .failed f
  | .halted => .halted
  | .running => .stepLimit m.steps

section Steps

variable {μ : Type → Type} [Monad μ]

/-- A run is over after its first step, or goes on from there. -/
theorem runBy_succ (take : Machine → μ Machine) (limit : UInt64) (fuel : Nat) (m : Machine) :
    m.runBy take limit (fuel + 1) = (do
      let m ← take m
      if m.isOver limit then return (m, m.ending) else m.runBy take limit fuel) := by
  rw [runBy]
  refine bind_congr fun m => ?_
  cases hs : m.status with
  | failed f => simp [isOver, ending, hs]
  | halted => simp [isOver, ending, hs]
  | running => simp [isOver, ending, hs]

theorem run_succ (limit : UInt64) (fuel : Nat) (m : Machine) :
    m.run limit (fuel + 1)
      = if m.step.isOver limit then (m.step, m.step.ending) else m.step.run limit fuel := by
  rw [run, runBy_succ]
  rfl

variable [LawfulMonad μ]

theorem runBy_memory (limit : UInt64) (fuel : Nat) (m : Machine) :
    m.runBy (fun m => (pure m.step : μ Machine)) limit fuel = pure (m.run limit fuel) := by
  induction fuel generalizing m with
  | zero => rfl
  | succ fuel ih =>
      rw [runBy_succ, pure_bind, run_succ]
      split
      · rfl
      · exact ih m.step

theorem runUnlessBy_memory (canceled : Bool) (limit : UInt64) (fuel : Nat) (m : Machine) :
    m.runUnlessBy (fun m => (pure m.step : μ Machine)) canceled limit fuel
      = pure (m.runUnless canceled limit fuel) := by
  cases canceled with
  | true => rfl
  | false => exact runBy_memory limit fuel m

end Steps

/-- The run is over after `k` steps, and not before. -/
structure OverAfter (limit : UInt64) (m : Machine) (k : Nat) : Prop where
  pos : 0 < k
  ends : (stepMany k m).isOver limit = true
  before : ∀ j, 0 < j → j < k → (stepMany j m).isOver limit = false

theorem overAfter_one (h : m.step.isOver limit = true) : OverAfter limit m 1 :=
  ⟨Nat.one_pos, h, fun _ hpos hlt => absurd hpos (by omega)⟩

theorem OverAfter.later (hgoes : m.step.isOver limit = false) (h : OverAfter limit m.step k) :
    OverAfter limit m (k + 1) := by
  refine ⟨Nat.succ_pos k, h.ends, ?_⟩
  intro j hpos hlt
  obtain ⟨i, rfl⟩ : ∃ i, j = i + 1 := ⟨j - 1, by omega⟩
  by_cases hi : i = 0
  · rw [hi]
    exact hgoes
  · exact h.before i (by omega) (by omega)

/-- The first step ends the run, or the rest of the run is over one step sooner. -/
theorem OverAfter.first (h : OverAfter limit m (k + 1)) :
    (k = 0 ∧ m.step.isOver limit = true) ∨
      (m.step.isOver limit = false ∧ OverAfter limit m.step k) := by
  by_cases hk : k = 0
  · subst hk
    exact Or.inl ⟨rfl, h.ends⟩
  · refine Or.inr ⟨h.before 1 Nat.one_pos (by omega), by omega, h.ends, ?_⟩
    intro j hpos hlt
    exact h.before (j + 1) (by omega) (by omega)

/-- With fuel enough, a run comes to its end. -/
theorem run_of_overAfter (h : OverAfter limit m k) {fuel : Nat} (hfuel : k ≤ fuel) :
    m.run limit fuel = (stepMany k m, (stepMany k m).ending) := by
  induction fuel generalizing m k with
  | zero => exact absurd h.pos (by omega)
  | succ fuel ih =>
      obtain ⟨j, rfl⟩ : ∃ j, k = j + 1 := ⟨k - 1, by have := h.pos; omega⟩
      rw [run_succ]
      rcases h.first with ⟨rfl, hover⟩ | ⟨hgoes, hrest⟩
      · rw [if_pos hover]
        rfl
      · rw [if_neg (by simp [hgoes])]
        exact ih hrest (by omega)

/-- A run that does not use up its fuel is over after some number of steps. -/
theorem exists_overAfter {fuel : Nat} (h : (m.run limit fuel).2 ≠ .outOfFuel) :
    ∃ k ≤ fuel, OverAfter limit m k := by
  induction fuel generalizing m with
  | zero => exact absurd rfl h
  | succ fuel ih =>
      by_cases hover : m.step.isOver limit = true
      · exact ⟨1, by omega, overAfter_one hover⟩
      · rw [run_succ, if_neg hover] at h
        obtain ⟨k, hle, hrest⟩ := ih h
        exact ⟨k + 1, by omega, hrest.later (by simpa using hover)⟩

/-! ### Counting instructions -/

/-- The machine `m` has become `m'` by executing `k` instructions. -/
structure Executes (m : Machine) (k : Nat) (m' : Machine) : Prop where
  machine : m' = stepMany k m
  running : ∀ j < k, (stepMany j m).status = .running

namespace Executes

variable {m' m'' : Machine} {l : Nat}

theorem none (m : Machine) : Executes m 0 m :=
  ⟨rfl, fun j hj => absurd hj (Nat.not_lt_zero j)⟩

theorem trans (h : Executes m k m') (h' : Executes m' l m'') : Executes m (k + l) m'' := by
  obtain ⟨rfl, hrunning⟩ := h
  obtain ⟨rfl, hrunning'⟩ := h'
  refine ⟨(stepMany_add k l m).symm, ?_⟩
  intro j hj
  by_cases hjk : j < k
  · exact hrunning j hjk
  · obtain ⟨i, rfl⟩ : ∃ i, j = k + i := ⟨j - k, by omega⟩
    rw [stepMany_add]
    exact hrunning' i (by omega)

theorem one (h : m.status = .running) : Executes m 1 m.step := by
  refine ⟨rfl, ?_⟩
  intro j hj
  obtain rfl : j = 0 := by omega
  exact h

end Executes

/-- A step executes one instruction, or none if the machine has stopped. -/
theorem executes_step (m : Machine) :
    Executes m (if m.status = .running then 1 else 0) m.step := by
  by_cases hrunning : m.status = .running
  · rw [if_pos hrunning]
    exact Executes.one hrunning
  · rw [if_neg hrunning, step_of_stopped hrunning]
    exact Executes.none m

theorem running_of_step (h : m.step.status = .running) : m.status = .running := by
  by_cases hrunning : m.status = .running
  · exact hrunning
  · rw [step_of_stopped hrunning] at h
    exact h

theorem exists_executes_run (limit : UInt64) (fuel : Nat) (m : Machine) :
    ∃ k, Executes m k (m.run limit fuel).1 := by
  induction fuel generalizing m with
  | zero => exact ⟨0, Executes.none m⟩
  | succ fuel ih =>
      rw [run_succ]
      by_cases hover : m.step.isOver limit = true
      · rw [if_pos hover]
        exact ⟨_, executes_step m⟩
      · rw [if_neg hover]
        obtain ⟨k, hrest⟩ := ih m.step
        exact ⟨_, (executes_step m).trans hrest⟩

theorem runUnless_false (limit : UInt64) (fuel : Nat) (m : Machine) :
    m.runUnless false limit fuel = m.run limit fuel := rfl

theorem exists_executes_runUnless (canceled : Bool) (limit : UInt64) (fuel : Nat) (m : Machine) :
    ∃ k, Executes m k (m.runUnless canceled limit fuel).1 := by
  cases canceled with
  | true => exact ⟨0, Executes.none m⟩
  | false => exact exists_executes_run limit fuel m

/-- The first `k` machines of a run. -/
def path (k : Nat) (m : Machine) : List Machine :=
  (List.range k).map fun j => stepMany j m

theorem path_succ (k : Nat) (m : Machine) : path (k + 1) m = m :: path k m.step := by
  rw [path, List.range_succ_eq_map, List.map_cons, List.map_map]
  rfl

theorem path_concat (k : Nat) (m : Machine) : path (k + 1) m = path k m ++ [stepMany k m] := by
  rw [path, List.range_succ, List.map_append]
  rfl

/-- The machines among them that were still running, so that an instruction was executed next. -/
def history (n : Nat) (m : Machine) : List Machine :=
  (path n m).filter fun m' => m'.status = .running

theorem history_succ (n : Nat) (m : Machine) :
    history (n + 1) m
      = history n m ++ if (stepMany n m).status = .running then [stepMany n m] else [] := by
  rw [history, path_concat, List.filter_append]
  by_cases hrunning : (stepMany n m).status = .running
  · rw [if_pos hrunning]
    simp [hrunning, history]
  · rw [if_neg hrunning]
    simp [hrunning, history]

theorem mem_history {n : Nat} {m' : Machine} :
    m' ∈ history n m ↔ ∃ j < n, m' = stepMany j m ∧ m'.status = .running := by
  rw [history, List.mem_filter, path, List.mem_map, decide_eq_true_eq]
  constructor
  · rintro ⟨⟨j, hj, rfl⟩, hrunning⟩
    exact ⟨j, List.mem_range.mp hj, rfl, hrunning⟩
  · rintro ⟨j, hj, rfl, hrunning⟩
    exact ⟨⟨j, List.mem_range.mpr hj, rfl⟩, hrunning⟩

/-- The machine of a history that comes `k`-th with a property is reached when `k` have had it. -/
theorem exists_of_getElem?_filter_history {p : Machine → Bool} {n : Nat} {m' : Machine}
    (h : ((history n m).filter p)[k]? = some m') :
    ∃ j < n, m' = stepMany j m ∧ m'.status = .running ∧ p m' = true ∧
      ((history j m).filter p).length = k := by
  induction n with
  | zero => simp [history, path] at h
  | succ n ih =>
      rw [history_succ, List.filter_append] at h
      by_cases hk : k < ((history n m).filter p).length
      · rw [List.getElem?_append_left hk] at h
        obtain ⟨j, hj, hreached⟩ := ih h
        exact ⟨j, by omega, hreached⟩
      · -- It is none of the earlier ones, so it is the last machine and the index is their number.
        rw [List.getElem?_append_right (by omega)] at h
        obtain ⟨hmem, hp⟩ := List.mem_filter.mp (List.mem_of_getElem? h)
        have hbound := (List.getElem?_eq_some_iff.mp h).1
        have hlength := List.length_filter_le p
          (if (stepMany n m).status = .running then [stepMany n m] else [])
        by_cases hrunning : (stepMany n m).status = .running
        · rw [if_pos hrunning, List.mem_singleton] at hmem
          rw [if_pos hrunning] at hbound hlength
          rw [List.length_singleton] at hlength
          exact ⟨n, by omega, hmem, hmem ▸ hrunning, hp, by omega⟩
        · rw [if_neg hrunning] at hmem
          cases hmem

end TimeTape.Machine
