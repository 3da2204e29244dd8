/-
When a redirect happens.

A schedule that is left alone but for its ticks is a timetable.  Only its top counts down, so delays
add up: each redirect takes its own delay from the moment the one above it is gone.  The delay is the
countdown, but never less than one tick, since a redirect can only happen at a tick.

A recurring redirect happens once its first delay is over and from then on once in every period, for
ever, and never lets anything under it have its turn.  Each time it calls the pointer to the place
from which it called it away the time before.

Everything follows from what happens to the top of a schedule (`calledAt_top_iff`).  One induction goes
down the redirects that happen once, the other along the ticks of the recurring one.
-/
import TimeTape.Proofs.Recurrence

namespace TimeTape

namespace Redirect

variable (r : Redirect) (ip : Int)

/-- How many ticks it takes, once it is on top, until it is due. -/
def delay : Nat :=
  (max r.countdown 1).toNat

/-- How many ticks a recurring redirect takes from one time to the next. -/
def cycle : Nat :=
  (max r.period 1).toNat

/-- The redirect when it has counted down `n` times and was not due yet. -/
def elapse (n : Nat) : Redirect :=
  { r with countdown := r.countdown - n }

/-- Whether it can count down without leaving the words, at the first tick as at all others. -/
def Ready : Prop :=
  -1 ≤ r.countdown ∧ FitsWord r.countdown

theorem delay_pos : 0 < r.delay := by
  unfold delay
  omega

theorem elapse_zero : r.elapse 0 = r := by
  simp [elapse]

theorem elapse_succ (n : Nat) :
    { r.elapse n with countdown := (r.elapse n).countdown - 1 } = r.elapse (n + 1) := by
  simp only [elapse, Redirect.mk.injEq, and_true]
  omega

theorem Ready.elapse {r : Redirect} {n : Nat} (h : r.Ready) (hn : n < r.delay) :
    (r.elapse n).Ready := by
  obtain ⟨hlo, hword⟩ := h
  unfold delay at hn
  unfold FitsWord at hword
  show -1 ≤ r.countdown - n ∧ FitsWord (r.countdown - n)
  exact ⟨by omega, by omega, by omega⟩

theorem countdown_of_lt {r : Redirect} {n : Nat} (hn : n + 1 < r.delay) :
    1 < (r.elapse n).countdown := by
  unfold delay at hn
  show 1 < r.countdown - n
  omega

theorem countdown_of_eq {r : Redirect} {n : Nat} (hn : r.delay = n + 1) :
    (r.elapse n).countdown ≤ 1 := by
  unfold delay at hn
  show r.countdown - n ≤ 1
  omega

theorem delay_again : (r.again ip).delay = r.cycle := rfl

theorem cycle_again : (r.again ip).cycle = r.cycle := rfl

end Redirect

namespace Schedule

variable {below : Schedule} {top r : Redirect} {ip : Nat → Int} {n : Nat} {target : Int}

/-! ### One tick -/

theorem tick_of_early (h : top.Ready) (hearly : 1 < top.countdown) (ip : Int) :
    tick (top :: below) ip = ({ top with countdown := top.countdown - 1 } :: below, none) := by
  obtain ⟨-, -, hword⟩ := h
  have hleft : wrap (top.countdown - 1) = top.countdown - 1 := wrap_of_fits ⟨by omega, by omega⟩
  simp only [tick, Arithmetic.wrapping_reduce, hleft]
  rw [if_pos (by omega)]

/-- What a redirect leaves on the schedule when it happens. -/
def renewed (top : Redirect) (ip : Int) (below : Schedule) : Schedule :=
  if top.recurring then top.again ip :: below else below

theorem tick_of_due (h : top.Ready) (hdue : top.countdown ≤ 1) (ip : Int) :
    tick (top :: below) ip = (renewed top ip below, some top.target) := by
  obtain ⟨hlo, -⟩ := h
  have hleft : wrap (top.countdown - 1) = top.countdown - 1 := wrap_of_fits ⟨by omega, by omega⟩
  simp only [tick, Arithmetic.wrapping_reduce, hleft, renewed]
  rw [if_neg (by omega)]
  split <;> rfl

/-! ### Any number of ticks -/

/-- The schedule after `n` ticks, where the pointer stands at `ip k` at tick number `k`. -/
def ticked (s : Schedule) (ip : Nat → Int) : Nat → Schedule
  | 0 => s
  | n + 1 => ((s.ticked ip n).tick (ip (n + 1))).1

/-- Where tick number `n` sends the pointer, if a redirect is due.  Ticks count from one. -/
def calledAt (s : Schedule) (ip : Nat → Int) : Nat → Option Int
  | 0 => none
  | n + 1 => ((s.ticked ip n).tick (ip (n + 1))).2

theorem ticked_add (s : Schedule) (ip : Nat → Int) (a n : Nat) :
    s.ticked ip (a + n) = (s.ticked ip a).ticked (fun k => ip (a + k)) n := by
  induction n with
  | zero => rfl
  | succ n ih =>
      show ((s.ticked ip (a + n)).tick (ip (a + n + 1))).1 = _
      rw [ih]
      rfl

theorem calledAt_add (s : Schedule) (ip : Nat → Int) (a : Nat) (hn : 0 < n) :
    s.calledAt ip (a + n) = (s.ticked ip a).calledAt (fun k => ip (a + k)) n := by
  cases n with
  | zero => exact absurd hn (Nat.lt_irrefl 0)
  | succ n =>
      show ((s.ticked ip (a + n)).tick (ip (a + n + 1))).2 = _
      rw [ticked_add]
      rfl

theorem calledAt_nil : calledAt [] ip n = none := by
  have hnil : ∀ n, ticked [] ip n = [] := by
    intro n
    induction n with
    | zero => rfl
    | succ n ih => rw [ticked, ih, tick]
  cases n with
  | zero => rfl
  | succ n => rw [calledAt, hnil, tick]

/-! ### The top of a schedule -/

theorem ticked_of_lt (h : top.Ready) (hn : n < top.delay) :
    ticked (top :: below) ip n = top.elapse n :: below := by
  induction n with
  | zero => rw [ticked, Redirect.elapse_zero]
  | succ n ih =>
      have hlt : n < top.delay := Nat.lt_of_succ_lt hn
      rw [ticked, ih hlt, tick_of_early (h.elapse hlt) (Redirect.countdown_of_lt hn),
        Redirect.elapse_succ]

/-- Until its delay is over the top keeps quiet. -/
theorem calledAt_of_lt (h : top.Ready) (hn : n < top.delay) :
    calledAt (top :: below) ip n = none := by
  cases n with
  | zero => rfl
  | succ n =>
      have hlt : n < top.delay := Nat.lt_of_succ_lt hn
      rw [calledAt, ticked_of_lt h hlt, tick_of_early (h.elapse hlt) (Redirect.countdown_of_lt hn)]

theorem exists_last_tick (h : top.Ready) :
    ∃ n, top.delay = n + 1 ∧ (ticked (top :: below) ip n).tick (ip (n + 1)) =
      (renewed top (ip (n + 1)) below, some top.target) := by
  obtain ⟨n, hn⟩ := Nat.exists_eq_succ_of_ne_zero (Nat.ne_of_gt top.delay_pos)
  have hlt : n < top.delay := by omega
  refine ⟨n, hn, ?_⟩
  rw [ticked_of_lt h hlt, tick_of_due (h.elapse hlt) (Redirect.countdown_of_eq hn)]
  rfl

/-- When its delay is over the top has happened. -/
theorem ticked_delay (h : top.Ready) :
    ticked (top :: below) ip top.delay = renewed top (ip top.delay) below := by
  obtain ⟨n, hn, htick⟩ := exists_last_tick h
  rw [hn, ticked, htick]

theorem calledAt_delay (h : top.Ready) :
    calledAt (top :: below) ip top.delay = some top.target := by
  obtain ⟨n, hn, htick⟩ := exists_last_tick h
  rw [hn, calledAt, htick]

/-- The top happens when its delay is over, and then it is the turn of what it leaves. -/
theorem calledAt_top_iff (h : top.Ready) :
    calledAt (top :: below) ip n = some target ↔
      (n = top.delay ∧ target = top.target) ∨
      ∃ k, n = top.delay + k ∧
        (renewed top (ip top.delay) below).calledAt (fun i => ip (top.delay + i)) k = some target := by
  rcases Nat.lt_trichotomy n top.delay with hlt | rfl | hgt
  · rw [calledAt_of_lt h hlt]
    constructor
    · intro hnone
      cases hnone
    · rintro (⟨rfl, -⟩ | ⟨k, rfl, -⟩) <;> omega
  · rw [calledAt_delay h, Option.some.injEq]
    constructor
    · intro htarget
      exact Or.inl ⟨rfl, htarget.symm⟩
    · rintro (⟨-, rfl⟩ | ⟨k, hk, hcalled⟩)
      · rfl
      · -- Nothing is called at tick number zero.
        obtain rfl : k = 0 := by omega
        cases hcalled
  · obtain ⟨k, rfl⟩ := Nat.exists_eq_add_of_lt hgt
    rw [Nat.add_assoc, calledAt_add _ _ _ (Nat.succ_pos k), ticked_delay h]
    constructor
    · intro hcalled
      exact Or.inr ⟨k + 1, rfl, hcalled⟩
    · rintro (⟨hk, -⟩ | ⟨k', hk, hcalled⟩)
      · omega
      · obtain rfl : k' = k + 1 := by omega
        exact hcalled

/-! ### Redirects that happen once -/

/-- A redirect that happens once, as it may be found on a schedule. -/
structure Single (r : Redirect) : Prop where
  once : r.recurring = false
  nonneg : 0 ≤ r.countdown
  fits : FitsWord r.countdown

theorem Single.ready (h : Single r) : r.Ready :=
  ⟨by have := h.nonneg; omega, h.fits⟩

theorem Single.renewed (h : Single r) (place : Int) : renewed r place below = below := by
  rw [Schedule.renewed, h.once]
  rfl

/-- How many ticks it takes until redirects that happen once are all gone. -/
def span : Schedule → Nat
  | [] => 0
  | r :: once => r.delay + span once

/-- Tick number `n` is the one at which one of the redirects happens, with the given target. -/
def HappensAt (once : Schedule) (n : Nat) (target : Int) : Prop :=
  ∃ k r, once[k]? = some r ∧ n = span (once.take (k + 1)) ∧ target = r.target

theorem happensAt_cons {once : Schedule} :
    HappensAt (r :: once) n target ↔
      (n = r.delay ∧ target = r.target) ∨ ∃ k, n = r.delay + k ∧ HappensAt once k target := by
  constructor
  · rintro ⟨k, r', hr', rfl, rfl⟩
    cases k with
    | zero =>
        cases hr'
        exact Or.inl ⟨by simp [span], rfl⟩
    | succ k =>
        refine Or.inr ⟨span (once.take (k + 1)), ?_, k, r', hr', rfl, rfl⟩
        rw [List.take_succ_cons, span]
  · rintro (⟨rfl, rfl⟩ | ⟨-, rfl, k, r', hr', rfl, rfl⟩)
    · exact ⟨0, r, rfl, by simp [span], rfl⟩
    · refine ⟨k + 1, r', hr', ?_, rfl⟩
      rw [List.take_succ_cons, span]

/-- The redirects that happen once do so one after the other, and then it is the turn of the rest. -/
theorem calledAt_append_iff {once : Schedule} (honce : ∀ r ∈ once, Single r) (rest : Schedule) :
    ∀ (ip : Nat → Int) (n : Nat),
      calledAt (once ++ rest) ip n = some target ↔
        HappensAt once n target ∨
        ∃ k, n = span once + k ∧ rest.calledAt (fun i => ip (span once + i)) k = some target := by
  induction once with
  | nil =>
      intro ip n
      simp [HappensAt, span]
  | cons r once ih =>
      intro ip n
      have hr := honce r (by simp)
      have ih := ih fun r hr => honce r (by simp [hr])
      rw [List.cons_append, calledAt_top_iff hr.ready, hr.renewed, happensAt_cons, span]
      simp only [Nat.add_assoc]
      constructor
      · rintro (hfirst | ⟨k, rfl, hcalled⟩)
        · exact Or.inl (Or.inl hfirst)
        · rcases (ih _ k).mp hcalled with hhappens | ⟨k, rfl, hrest⟩
          · exact Or.inl (Or.inr ⟨k, rfl, hhappens⟩)
          · exact Or.inr ⟨k, rfl, hrest⟩
      · rintro ((hfirst | ⟨k, rfl, hhappens⟩) | ⟨k, rfl, hrest⟩)
        · exact Or.inl hfirst
        · exact Or.inr ⟨k, rfl, (ih _ k).mpr (Or.inl hhappens)⟩
        · exact Or.inr ⟨span once + k, rfl, (ih _ _).mpr (Or.inr ⟨k, rfl, hrest⟩)⟩

theorem ticked_span {once : Schedule} (honce : ∀ r ∈ once, Single r) (rest : Schedule) :
    ∀ ip : Nat → Int, ticked (once ++ rest) ip (span once) = rest := by
  induction once with
  | nil => intro ip; rfl
  | cons r once ih =>
      intro ip
      have hr := honce r (by simp)
      rw [span, ticked_add, List.cons_append, ticked_delay hr.ready, hr.renewed]
      exact ih (fun r hr => honce r (by simp [hr])) _

/-- When the first `k` redirects have happened they are gone, and nothing else is. -/
theorem ticked_span_take {once : Schedule} (honce : ∀ r ∈ once, Single r) (rest : Schedule)
    (ip : Nat → Int) (k : Nat) :
    ticked (once ++ rest) ip (span (once.take k)) = once.drop k ++ rest := by
  have htake : ∀ r ∈ once.take k, Single r := fun r hr => honce r (List.mem_of_mem_take hr)
  have hspan := ticked_span htake (once.drop k ++ rest) ip
  rwa [← List.append_assoc, List.take_append_drop] at hspan

/-! ### A recurring redirect -/

/-- A recurring redirect, as it may be found on a schedule. -/
structure Recurring (r : Redirect) : Prop where
  recurring : r.recurring = true
  ready : r.Ready
  period : -1 ≤ r.period
  fits : FitsWord r.period

theorem Recurring.again (h : Recurring r) (place : Int) : Recurring (r.again place) :=
  ⟨rfl, ⟨h.period, h.fits⟩, h.period, h.fits⟩

/-- A recurring redirect happens after its delay, and then again after every cycle. -/
theorem calledAt_recurring_iff :
    ∀ (n : Nat) {pin : Redirect} (_ : Recurring pin) (ip : Nat → Int),
      calledAt (pin :: below) ip n = some target ↔
        (n = pin.delay ∧ target = pin.target) ∨
        ∃ j, n = pin.delay + (j + 1) * pin.cycle ∧ target = ip (pin.delay + j * pin.cycle) := by
  intro n
  induction n using Nat.strongRecOn with
  | ind n ih =>
      intro pin hpin ip
      have hrenewed : renewed pin (ip pin.delay) below = pin.again (ip pin.delay) :: below := by
        rw [renewed, hpin.recurring]
        rfl
      rw [calledAt_top_iff hpin.ready, hrenewed]
      refine or_congr Iff.rfl ?_
      -- What is put back is due after one cycle, and its target is the place of the first time.
      have hlt : ∀ k, n = pin.delay + k → k < n := by
        have hpos := pin.delay_pos
        intro k hk
        omega
      constructor
      · rintro ⟨k, hk, hcalled⟩
        rcases (ih k (hlt k hk) (hpin.again _) _).mp hcalled with ⟨hfirst, rfl⟩ | ⟨j, hj, rfl⟩
        · refine ⟨0, ?_, by simp [Redirect.again]⟩
          rw [hk, hfirst, Redirect.delay_again, Nat.zero_add, Nat.one_mul]
        · rw [Redirect.delay_again, Redirect.cycle_again] at *
          refine ⟨j + 1, ?_, ?_⟩
          · rw [hk, hj, Nat.add_mul (j + 1), Nat.one_mul, Nat.add_comm pin.cycle]
          · rw [Nat.add_mul j, Nat.one_mul, Nat.add_comm pin.cycle]
      · rintro ⟨j, hj, rfl⟩
        refine ⟨(j + 1) * pin.cycle, hj, (ih _ (hlt _ hj) (hpin.again _) _).mpr ?_⟩
        rw [Redirect.delay_again, Redirect.cycle_again]
        cases j with
        | zero => exact Or.inl ⟨by rw [Nat.zero_add, Nat.one_mul], by simp [Redirect.again]⟩
        | succ j =>
            refine Or.inr ⟨j, ?_, ?_⟩
            · rw [Nat.add_mul (j + 1), Nat.one_mul, Nat.add_comm pin.cycle]
            · rw [Nat.add_mul j, Nat.one_mul, Nat.add_comm pin.cycle]

theorem pinned_ticked (above : Schedule) {pin : Redirect} (hpin : pin.recurring = true)
    (below : Schedule) (ip : Nat → Int) (n : Nat) :
    Pinned below pin.period (ticked (above ++ pin :: below) ip n) := by
  induction n with
  | zero => exact ⟨above, pin, rfl, hpin, rfl⟩
  | succ n ih => exact ih.tick _

/--
**Ticks follow the timetable.**  Let a schedule begin with redirects that happen once.  They happen
one after the other, each when the delays down to it are over, and are gone then, while all below is
as it was.  If there is nothing else, nothing else happens.  If a recurring redirect comes next, it
happens after its own delay, to its target, and then once in every cycle, to the place the pointer was
called away from the time before.  No other tick calls the pointer, and nothing below the recurring
redirect ever changes.
-/
theorem ticks_follow_timetable (once : Schedule) (honce : ∀ r ∈ once, Single r) (ip : Nat → Int) :
    (∀ rest k, ticked (once ++ rest) ip (span (once.take k)) = once.drop k ++ rest) ∧
    (∀ n target, calledAt once ip n = some target ↔ HappensAt once n target) ∧
    ∀ pin below, Recurring pin →
      let first := span once + pin.delay
      (∀ n target, calledAt (once ++ pin :: below) ip n = some target ↔
        HappensAt once n target ∨ (n = first ∧ target = pin.target) ∨
          ∃ j, n = first + (j + 1) * pin.cycle ∧ target = ip (first + j * pin.cycle)) ∧
      ∀ n, Pinned below pin.period (ticked (once ++ pin :: below) ip n) := by
  refine ⟨fun rest k => ticked_span_take honce rest ip k, ?_, ?_⟩
  · intro n target
    have hsplit : calledAt (once ++ []) ip n = some target ↔ _ := calledAt_append_iff honce [] ip n
    rw [List.append_nil] at hsplit
    rw [hsplit]
    simp [calledAt_nil]
  · intro pin below hpin first
    refine ⟨?_, pinned_ticked once hpin.recurring below ip⟩
    intro n target
    rw [calledAt_append_iff honce]
    simp only [calledAt_recurring_iff _ hpin, ← Nat.add_assoc]
    refine or_congr Iff.rfl ?_
    constructor
    · rintro ⟨k, rfl, ⟨rfl, rfl⟩ | ⟨j, rfl, rfl⟩⟩
      · exact Or.inl ⟨rfl, rfl⟩
      · exact Or.inr ⟨j, (Nat.add_assoc ..).symm, rfl⟩
    · rintro (⟨rfl, rfl⟩ | ⟨j, rfl, rfl⟩)
      · exact ⟨pin.delay, rfl, Or.inl ⟨rfl, rfl⟩⟩
      · exact ⟨_, Nat.add_assoc .., Or.inr ⟨j, rfl, rfl⟩⟩

/--
Two redirects that happen once, due at once and after three ticks, lie over a recurring one, and that
over a fourth that never has its turn.
-/
theorem ticks_follow_timetable_four_deep :
    let s : Schedule := [⟨0, 7, false, 0⟩, ⟨3, 4, false, 2⟩, ⟨2, 9, true, 2⟩, ⟨5, 1, false, 4⟩]
    ∀ ip : Nat → Int, s.calledAt ip 1 = some 7 ∧ s.calledAt ip 4 = some 4 ∧
      s.calledAt ip 6 = some 9 ∧ ∀ j, s.calledAt ip (6 + (j + 1) * 2) = some (ip (6 + j * 2)) := by
  intro s ip
  have honce : ∀ r ∈ ([⟨0, 7, false, 0⟩, ⟨3, 4, false, 2⟩] : Schedule), Single r := by
    intro r hr
    rcases List.mem_cons.mp hr with rfl | hr
    · exact ⟨rfl, by decide, by decide⟩
    · rw [List.mem_singleton.mp hr]
      exact ⟨rfl, by decide, by decide⟩
  have hcalled := ((ticks_follow_timetable _ honce ip).2.2 ⟨2, 9, true, 2⟩ [⟨5, 1, false, 4⟩]
    ⟨rfl, ⟨by decide, by decide⟩, by decide, by decide⟩).1
  refine ⟨?_, ?_, ?_, ?_⟩
  · exact (hcalled 1 7).mpr (Or.inl ⟨0, _, rfl, rfl, rfl⟩)
  · exact (hcalled 4 4).mpr (Or.inl ⟨1, _, rfl, rfl, rfl⟩)
  · exact (hcalled 6 9).mpr (Or.inr (Or.inl ⟨rfl, rfl⟩))
  · intro j
    exact (hcalled _ _).mpr (Or.inr (Or.inr ⟨j, rfl, rfl⟩))

end Schedule

end TimeTape
