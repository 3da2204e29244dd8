/-
What `E` does to a machine.

`E` ticks as often as the current cell says, without executing anything.  Each of these ticks is
given the pointer that the one before it has left, so a redirect that is due moves the pointer as
any other does, and a recurring one that is due after it is put back with that place for its target.
`drift` is this loop on the schedule and the pointer alone, and `calls` the targets it comes past.

The options decide whether the pointer stays where the last of these redirects has put it, or goes
back to the `E`.  That is decided when all ticks are over.  So whatever else `E` leaves is the same
under both settings, also where it depends on the places the pointer has been in between.
-/
import TimeTape.Proofs.Partners

namespace TimeTape

/-! ### Ticks in which nothing is executed -/

namespace Schedule

variable {s : Schedule} {ip : Int} {n : Nat}

/-- The schedule and the pointer after `n` ticks, each from where the one before it left them. -/
def drift (s : Schedule) (ip : Int) : Nat → Schedule × Int
  | 0 => (s, ip)
  | n + 1 =>
    let ticked := (s.drift ip n).1.tick (s.drift ip n).2
    (ticked.1, ticked.2.getD (s.drift ip n).2)

/-- Where the tick after the first `n` of them sends the pointer, if a redirect is due. -/
def driftCall (s : Schedule) (ip : Int) (n : Nat) : Option Int :=
  ((s.drift ip n).1.tick (s.drift ip n).2).2

/-- The targets of all redirects that are due in `n` such ticks, in order. -/
def calls (s : Schedule) (ip : Int) (n : Nat) : List Int :=
  (List.range n).filterMap (s.driftCall ip)

theorem calls_succ : s.calls ip (n + 1) = s.calls ip n ++ (s.driftCall ip n).toList := by
  unfold calls
  rw [List.range_succ, List.filterMap_append]
  cases hcall : s.driftCall ip n with
  | none => simp [hcall]
  | some target => simp [hcall]

/-- The pointer is where the last redirect has sent it, and has not moved if there was none. -/
theorem drift_ip : (s.drift ip n).2 = (s.calls ip n).getLast?.getD ip := by
  induction n with
  | zero => rfl
  | succ n ih =>
      show (s.driftCall ip n).getD (s.drift ip n).2 = _
      rw [calls_succ, ih]
      cases s.driftCall ip n with
      | none => simp
      | some target => simp

/-- A recurring redirect that is due is put back with the latest target for its own. -/
theorem drift_of_recurring {top : Redirect} {below : Schedule} {target : Int}
    (htop : (s.drift ip n).1 = top :: below) (hrecurring : top.recurring = true)
    (hdue : s.driftCall ip n = some target) :
    (s.drift ip (n + 1)).1 = top.again ((s.calls ip n).getLast?.getD ip) :: below := by
  rw [← drift_ip]
  show ((s.drift ip n).1.tick (s.drift ip n).2).1 = _
  rw [driftCall, htop] at hdue
  rw [htop]
  simp only [tick] at hdue ⊢
  split at hdue
  · cases hdue
  · rename_i hleft
    rw [if_neg hleft, if_pos hrecurring]

end Schedule

/-- The profile with `n` more redirects counted. -/
def Profile.redirected (n : Nat) (p : Profile) : Profile :=
  { p with redirects := p.redirects + UInt64.ofNat n }

theorem Profile.redirected_zero : redirected 0 = id := by
  funext p
  simp [redirected]

theorem Profile.redirected_comp (a b : Nat) : redirected b ∘ redirected a = redirected (a + b) := by
  funext p
  simp [redirected, UInt64.ofNat_add, UInt64.add_assoc]

namespace Machine

section Ticks

variable (m : Machine) (g : UInt8) (n : Nat)

/-- A tick as a whole, but for what is noted of it. -/
theorem exists_tick :
    ∃ notes, (m.tick g).1 =
      { m with
        schedule := (m.schedule.tick m.ip).1
        ip := (m.schedule.tick m.ip).2.getD m.ip
        profile := m.profile.map (Profile.redirected (m.schedule.tick m.ip).2.toList.length)
        notes } := by
  unfold tick
  rcases m.schedule.tick m.ip with ⟨schedule, target?⟩
  cases target? with
  | none =>
      refine ⟨m.notes, ?_⟩
      simp [Profile.redirected_zero]
  | some target =>
      obtain ⟨notes, hnote⟩ := m.exists_note (.redirected m.ip target)
      refine ⟨notes, ?_⟩
      simp only [hnote]
      rfl

/-- Ticks in which nothing is executed let the schedule and the pointer drift. -/
theorem exists_skipTicks :
    ∃ notes, skipTicks n m =
      { m with
        schedule := (m.schedule.drift m.ip n).1
        ip := (m.schedule.drift m.ip n).2
        profile := m.profile.map (Profile.redirected (m.schedule.calls m.ip n).length)
        notes } := by
  induction n with
  | zero =>
      refine ⟨m.notes, ?_⟩
      simp [skipTicks, Schedule.drift, Schedule.calls, Profile.redirected_zero]
  | succ n ih =>
      obtain ⟨before, hbefore⟩ := ih
      obtain ⟨notes, htick⟩ := (skipTicks n m).exists_tick 0
      refine ⟨notes, ?_⟩
      rw [skipTicks_succ, htick, hbefore]
      simp only [Schedule.drift, Option.map_map, Schedule.calls_succ, List.length_append,
        Profile.redirected_comp]
      rfl

end Ticks

/-! ### The two settings -/

section Settings

variable (m : Machine) (moves : Bool)

/-- The machine with its options saying whether the pointer stays where erased ticks put it. -/
def erasing : Machine :=
  { m with options := { m.options with eraseMovesPointer := moves } }

theorem note_erasing (e : Event) : (m.erasing moves).note e = (m.note e).erasing moves := by
  unfold note
  by_cases hverbose : m.options.verbose
  · rw [if_pos hverbose, if_pos (show (m.erasing moves).options.verbose from hverbose)]
    rfl
  · rw [if_neg hverbose, if_neg (show ¬(m.erasing moves).options.verbose from hverbose)]

theorem tick_erasing (g : UInt8) :
    (m.erasing moves).tick g = ((m.tick g).1.erasing moves, (m.tick g).2) := by
  have hschedule : (m.erasing moves).schedule.tick (m.erasing moves).ip = m.schedule.tick m.ip :=
    rfl
  unfold tick
  rw [hschedule]
  rcases m.schedule.tick m.ip with ⟨schedule, target?⟩
  cases target? with
  | none => rfl
  | some target =>
      simp only [note_erasing]
      rfl

/-- The ticks that are erased do not look at the setting. -/
theorem skipTicks_erasing (n : Nat) :
    skipTicks n (m.erasing moves) = (skipTicks n m).erasing moves := by
  induction n with
  | zero => rfl
  | succ n ih => rw [skipTicks_succ, skipTicks_succ, ih, tick_erasing]

/-- Only when the ticks are over does `E` look at it. -/
theorem execute_erase {m : Machine} (hmp : 0 ≤ m.mp) (moves : Bool) :
    (m.erasing moves).execute Instruction.erase.glyph =
      ({ (skipTicks m.cell.toNat m.reaching).erasing moves with
          ip := if moves then (skipTicks m.cell.toNat m.reaching).ip else m.ip }, none) := by
  have hcell := withCell_of_nonneg (m := m.erasing moves) hmp
  rw [execute, Instruction.ofGlyph?_glyph]
  simp only [hcell]
  show (if moves then skipTicks m.cell.toNat (m.reaching.erasing moves)
      else { skipTicks m.cell.toNat (m.reaching.erasing moves) with ip := m.ip }, none) = _
  rw [skipTicks_erasing]
  cases moves <;> rfl

end Settings

/--
**The two settings of `E` differ in the pointer only.**  Let the current cell of a machine hold `N`.
Under both settings `E` ticks `N` times, each time from where the tick before has left the schedule
and the pointer, and counts the redirects that happen.  It leaves the same machine but for the
pointer.  That stays at the target of the last redirect if the options say so, and where it is if
there was none, and otherwise it is put back.  Even so, a recurring redirect that is due in one of
these ticks has been aimed at the last target before that tick.
-/
theorem erase_settings_differ_in_pointer (m : Machine) (hmp : 0 ≤ m.mp) :
    let N := m.cell.toNat
    let drifted := m.schedule.drift m.ip
    let calls := m.schedule.calls m.ip
    (∃ notes,
      let erased : Machine :=
        { m with
          tape := m.tape.extend m.mp.toNat
          schedule := (drifted N).1
          profile := m.profile.map (Profile.redirected (calls N).length)
          notes }
      (m.erasing true).execute Instruction.erase.glyph =
          ({ erased.erasing true with ip := (calls N).getLast?.getD m.ip }, none) ∧
        (m.erasing false).execute Instruction.erase.glyph =
          ({ erased.erasing false with ip := m.ip }, none)) ∧
    ∀ k < N, ∀ top below target, (drifted k).1 = top :: below → top.recurring = true →
      m.schedule.driftCall m.ip k = some target →
      (drifted (k + 1)).1 = top.again ((calls k).getLast?.getD m.ip) :: below := by
  intro N drifted calls
  constructor
  · obtain ⟨notes, hskip⟩ := m.reaching.exists_skipTicks N
    refine ⟨notes, ?_, ?_⟩
    · rw [execute_erase hmp, hskip, Schedule.drift_ip]
      rfl
    · rw [execute_erase hmp, hskip]
      rfl
  · intro k _ top below target htop hrecurring hdue
    exact Schedule.drift_of_recurring htop hrecurring hdue

/--
Two ticks are erased at index 5 with two redirects pending.  The first goes to index 2, so the
recurring one below it is put back with 2 for its target, even if the pointer then returns to 5.
-/
theorem erase_settings_differ_in_pointer_two_deep :
    let m : Machine :=
      { program := Program.ofBytes [0x3E, 0x3E, 0x3E, 0x3E, 0x3E, 0x45, 0x3E, 0x3E]
        options := { profile := true }
        ip := 5
        tape := ⟨#[2]⟩
        schedule := [⟨1, 2, false, 0⟩, ⟨1, 7, true, 1⟩]
        profile := some {} }
    let moved := ((m.erasing true).execute Instruction.erase.glyph).1
    let returned := ((m.erasing false).execute Instruction.erase.glyph).1
    0 ≤ m.mp ∧ moved.ip = 7 ∧ returned.ip = 5 ∧
      moved.schedule = [⟨1, 2, true, 1⟩] ∧ returned.schedule = [⟨1, 2, true, 1⟩] ∧
      returned.profile.map Profile.redirects = some 2 := by
  intro m moved returned
  obtain ⟨⟨notes, hmoved, hreturned⟩, hagain⟩ :=
    erase_settings_differ_in_pointer m (by decide)
  have hschedule := hagain 1 (by decide) ⟨1, 7, true, 1⟩ [] 7 (by decide) rfl (by decide)
  refine ⟨by decide, ?_, ?_, ?_, ?_, ?_⟩
  · exact (congrArg (fun r => r.1.ip) hmoved).trans rfl
  · exact congrArg (fun r => r.1.ip) hreturned
  · exact (congrArg (fun r => r.1.schedule) hmoved).trans hschedule
  · exact (congrArg (fun r => r.1.schedule) hreturned).trans hschedule
  · exact (congrArg (fun r => r.1.profile.map Profile.redirects) hreturned).trans rfl

end Machine

end TimeTape
