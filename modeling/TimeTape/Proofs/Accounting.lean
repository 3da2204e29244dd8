/-
The profile of a run accounts for the run.

A machine with a profile records every instruction before it is executed, at the index where the
ticks have left the pointer, and every redirect when it happens, also in ticks that `E` erases.
Nothing else touches the profile, so what it says is told by the history of the run: the machines at
which an instruction was executed, one after the other.  `Proofs.Profile` tells what it then says.

That every index in it is one of the program needs what `Proofs.Pointers` shows: no redirect leads
outside while the machine runs.
-/
import TimeTape.Proofs.Delays
import TimeTape.Proofs.Erasing
import TimeTape.Proofs.Limits
import TimeTape.Proofs.Profile

namespace TimeTape.Machine

variable {code : Bytes} {m m' : Machine} {g : UInt8}

/-! ### What a step does to the profile -/

/-- The targets of the redirects that executing a byte brings about, in the ticks it erases. -/
def erasedCalls (m : Machine) (g : UInt8) : List Int :=
  if g = Instruction.erase.glyph then m.schedule.calls m.ip m.cell.toNat else []

/-- The targets of all redirects in the next step: of its own tick, and of the ticks it erases. -/
def redirections (m : Machine) : List Int :=
  m.redirect?.toList ++ m.poised.erasedCalls m.dispatched

theorem poised_profile (m : Machine) :
    m.poised.profile = m.profile.map fun p =>
      (p.record m.poised.ip m.dispatched).redirected m.redirect?.toList.length := by
  obtain ⟨notes, htick⟩ := m.exists_tick (m.glyphAt m.ip)
  have hcount : m.poised.profile = (m.tick (m.glyphAt m.ip)).1.profile.map fun p =>
      p.record (m.tick (m.glyphAt m.ip)).1.ip m.dispatched := by
    simp [poised, count]
  rw [hcount, tick_ip, ← poised_ip, htick, Option.map_map]
  rfl

theorem execute_profile (hm : m.OnTape) {fault? : Option Fault} (h : m.execute g = (m', fault?)) :
    m'.profile = m.profile.map (Profile.redirected (m.erasedCalls g).length) := by
  unfold erasedCalls
  by_cases herase : g = Instruction.erase.glyph
  · rw [if_pos herase]
    have hsetting : m.erasing m.options.eraseMovesPointer = m := rfl
    have hexec := execute_erase hm.1 m.options.eraseMovesPointer
    obtain ⟨notes, hskip⟩ := m.reaching.exists_skipTicks m.cell.toNat
    rw [hsetting, ← herase, h, hskip] at hexec
    exact congrArg (fun r => r.1.profile) hexec
  · rw [if_neg herase, List.length_nil, Profile.redirected_zero, Option.map_id]
    cases effect_of_eq hm h with
    | comment _ | follow _ _ _ _ _ _ | read _ _ _ _ _ | unread _ _ _ _ _ => simp
    | erase glyph => exact absurd glyph herase
    | _ => rfl

/-- A step records its instruction and all its redirects. -/
theorem Inside.step_profile (h : Inside code m) (hrunning : m.status = .running) :
    m.step.profile = m.profile.map fun p =>
      (p.record m.poised.ip m.dispatched).redirected m.redirections.length := by
  obtain ⟨m', fault?, ip, status, hexec, hstep⟩ := exists_execute_of_step hrunning
  have hprofile : m.step.profile = m'.profile := by rw [hstep]
  rw [hprofile, execute_profile h.poised.cell hexec, poised_profile, Option.map_map, redirections,
    List.length_append, ← Profile.redirected_comp]
  rfl

/-! ### What a run does to it -/

section Start

variable {options : Options} {source : Source} {sink : Sink}

/-- The profile of a run holds its history, and counts its redirects. -/
theorem profile_stepMany (hprofile : options.profile = true) (n : Nat) :
    (stepMany n (start code options source sink)).profile =
      some ((Profile.ofHistory (fun m => m.poised.ip) dispatched
        (history n (start code options source sink))).redirected
          ((history n (start code options source sink)).flatMap redirections).length) := by
  induction n with
  | zero =>
      have hfirst : (start code options source sink).profile = some {} := by
        simp [start, hprofile]
      exact hfirst
  | succ n ih =>
      rw [stepMany_succ, history_succ]
      by_cases hrunning : (stepMany n (start code options source sink)).status = .running
      · have hin := (reached code options source sink n).running hrunning
        rw [if_pos hrunning, hin.step_profile hrunning, ih, Profile.ofHistory_concat,
          List.flatMap_append, List.flatMap_singleton, List.length_append,
          ← Profile.redirected_comp]
        rfl
      · rw [if_neg hrunning, step_of_stopped hrunning, ih, List.append_nil]

/-- The steps that a run has counted are those of its history. -/
theorem steps_stepMany (n : Nat) :
    (stepMany n (start code options source sink)).steps
      = UInt64.ofNat (history n (start code options source sink)).length := by
  induction n with
  | zero => simp [stepMany, start, history, path]
  | succ n ih =>
      rw [stepMany_succ, history_succ, (reached code options source sink n).steps_step]
      by_cases hrunning : (stepMany n (start code options source sink)).status = .running
      · rw [if_pos hrunning, if_pos hrunning, ih, List.length_append, UInt64.ofNat_add]
        rfl
      · rw [if_neg hrunning, if_neg hrunning, ih, List.append_nil]

end Start

/-! ### What the profile says of the run -/

/-- The machines of a history at which the byte at an index was executed. -/
def visits (history : List Machine) (i : Int) : List Machine :=
  Profile.visits (fun m => m.poised.ip) history i

/--
A row that accounts for the executions at its index: there are some, the row counts them, and it
shows the byte that was executed there last.
-/
def AccountedBy (history : List Machine) (row : HotSpot) : Prop :=
  ∃ last, (visits history row.index).getLast? = some last ∧ row.glyph = last.dispatched ∧
    row.count = UInt64.ofNat (visits history row.index).length

/-- What is executed is a byte of the program as it reads in the direction of travel. -/
theorem Inside.byte_dispatched (h : Inside code m) :
    (0 ≤ m.poised.ip ∧ m.poised.ip < code.length) ∧
      (Program.text code m.direction)[m.poised.ip.toNat]? = some m.dispatched := by
  obtain ⟨hlo, hlt, -⟩ := h.poised.pointer
  refine ⟨⟨hlo, hlt⟩, ?_⟩
  rw [Program.getElem?_text hlo hlt, dispatched_eq, image, h.program]

/--
**The profile accounts for the run.**  Let a machine with a profile have taken any number of steps.

The profile has counted as many instructions as the machine has counted steps, which is the number
of those that were executed, and so is the sum of the counts of all rows.  Every row is about an
index of the program.  It counts how often the byte there was executed, and shows the one that was
executed last, which is the byte of the program at that index or of the mirrored program.  The
redirects are those of all ticks, in the steps and in what they have erased.  The list of all rows
is the only one that has a row for every index that was executed, by falling count and then by
rising index, and the `k` busiest rows are its first ones.

Counts are words.  They are the numbers themselves as long as these are words.
-/
theorem profile_accounts_for_run (code : Bytes) (options : Options) (source : Source) (sink : Sink)
    (hprofile : options.profile = true) (n : Nat) :
    let first := start code options source sink
    let m := stepMany n first
    let executed := history n first
    let fired := executed.flatMap redirections
    ∃ p, m.profile = some p ∧
      (p.total = m.steps ∧ UInt64.ofNat (Profile.countSum (p.busiest (-1))) = m.steps ∧
        m.steps = UInt64.ofNat executed.length) ∧
      (∀ row ∈ p.busiest (-1), (0 ≤ row.index ∧ row.index < code.length) ∧
        AccountedBy executed row ∧
        ∃ d, (Program.text code d)[row.index.toNat]? = some row.glyph) ∧
      p.redirects = UInt64.ofNat fired.length ∧
      (∀ rows, rows = p.busiest (-1) ↔
        rows.Pairwise HotSpot.Before ∧ ∀ row, row ∈ rows ↔ AccountedBy executed row) ∧
      (p.busiest (-1)).length = (executed.map fun m => m.poised.ip).dedup.length ∧
      (∀ k : Nat, p.busiest k
        = (p.busiest (-1)).take (min k (executed.map fun m => m.poised.ip).dedup.length)) ∧
      (executed.length < UInt64.size →
        m.steps.toNat = executed.length ∧
        Profile.countSum (p.busiest (-1)) = executed.length ∧
        ∀ row ∈ p.busiest (-1), row.count.toNat = (visits executed row.index).length) ∧
      (fired.length < UInt64.size → p.redirects.toNat = fired.length) := by
  intro first m executed fired
  let recorded := Profile.ofHistory (fun m => m.poised.ip) dispatched executed
  have hsteps : m.steps = UInt64.ofNat executed.length := steps_stepMany n
  have hall : (recorded.redirected fired.length).busiest (-1) = recorded.rows := rfl
  have hrow : ∀ row, row ∈ recorded.rows ↔ AccountedBy executed row :=
    fun row => Profile.mem_rows_ofHistory _ dispatched executed
  have hsum := Profile.length_flatMap_visits (fun m => m.poised.ip) dispatched executed
  have hcount : ∀ row ∈ recorded.rows,
      row.count = UInt64.ofNat (visits executed row.index).length :=
    fun row hmem => Profile.count_of_mem_rows _ dispatched executed hmem
  have hredirects : (recorded.redirected fired.length).redirects = UInt64.ofNat fired.length := by
    show recorded.redirects + _ = _
    rw [Profile.redirects_ofHistory, UInt64.zero_add]
  have hindices := Profile.length_rows_ofHistory (fun m => m.poised.ip) dispatched executed
  refine ⟨recorded.redirected fired.length, profile_stepMany hprofile n,
    ?_, ?_, ?_, ?_, ?_, ?_, ?_, ?_⟩
  · rw [hall, hsteps, Profile.ofNat_countSum hcount]
    exact ⟨Profile.total_ofHistory _ dispatched executed, congrArg UInt64.ofNat hsum, rfl⟩
  · intro row hmem
    rw [hall] at hmem
    obtain ⟨last, hlast, hglyph, -⟩ := (hrow row).mp hmem
    have hvisit := List.mem_filter.mp (List.mem_of_getLast? hlast)
    have hindex : last.poised.ip = row.index := by simpa using hvisit.2
    obtain ⟨-, hin⟩ := (start_reached _ _ _ _).of_mem_history hvisit.1
    obtain ⟨hinside, hbyte⟩ := hin.byte_dispatched
    rw [hindex] at hinside hbyte
    exact ⟨hinside, (hrow row).mp hmem, last.direction, hglyph ▸ hbyte⟩
  · exact hredirects
  · intro rows
    rw [hall, Profile.eq_rows_iff]
    simp only [hrow]
  · exact hindices
  · intro k
    rw [Profile.busiest_natCast, hall, ← hindices, ← List.take_eq_take_min]
    rfl
  · intro hlt
    rw [hall]
    refine ⟨?_, ?_, ?_⟩
    · rw [hsteps, UInt64.toNat_ofNat_of_lt' hlt]
    · rw [Profile.countSum_eq hcount (lt_of_eq_of_lt hsum hlt)]
      exact hsum
    · intro row hmem
      have hle : (visits executed row.index).length ≤ executed.length := List.length_filter_le _ _
      rw [hcount row hmem, UInt64.toNat_ofNat_of_lt' (by omega)]
  · intro hlt
    rw [hredirects, UInt64.toNat_ofNat_of_lt' hlt]

/--
The program `+W+WWE{R` after nine steps.  It has been redirected once in a step and twice in ticks
that were erased, and the bracket has been executed in both directions, last as a closer.
-/
theorem profile_accounts_for_run_there_and_back :
    let first :=
      start [0x2B, 0x57, 0x2B, 0x57, 0x57, 0x45, 0x7B, 0x52] { profile := true } {} {}
    ∃ p, (stepMany 9 first).profile = some p ∧ p.total = 9 ∧ p.redirects = 3 ∧
      (p.busiest (-1)).length = 8 ∧ ⟨6, 0x7D, 2⟩ ∈ p.busiest (-1) := by
  obtain ⟨p, hp, ⟨htotal, -, -⟩, -, hredirects, hrows, hlength, -⟩ :=
    profile_accounts_for_run [0x2B, 0x57, 0x2B, 0x57, 0x57, 0x45, 0x7B, 0x52] { profile := true }
      {} {} rfl 9
  refine ⟨p, hp, ?_, ?_, ?_, ?_⟩
  · rw [htotal]
    decide +kernel
  · rw [hredirects]
    decide +kernel
  · rw [hlength]
    decide +kernel
  · obtain ⟨last, hlast, hglyph⟩ := Option.map_eq_some_iff.mp
      (show (visits (history 9 (start [0x2B, 0x57, 0x2B, 0x57, 0x57, 0x45, 0x7B, 0x52]
        { profile := true } {} {})) 6).getLast?.map dispatched = some 0x7D by decide +kernel)
    exact (((hrows _).mp rfl).2 _).mpr ⟨last, hlast, hglyph.symm, by decide +kernel⟩

end TimeTape.Machine
