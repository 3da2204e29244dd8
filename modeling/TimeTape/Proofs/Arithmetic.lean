/-
The arithmetic of the engine is exact, but for one count.

The engine computes with words, and a result that leaves their range comes back at the other end.  To
say when this happens, the engine is asked for its step under other rules.  An arithmetic that keeps
the words (`KeepsWords`) leaves every result alone that is a word, and may do anything with the
others: wrap around, go on without bounds, or stay at the last word.  If a machine takes the same
step under all of these, no result that is not a word has been computed.

The counts of a machine are records, and a step is told apart from them: `recount` puts others in
their place, and a step under any such rule is the step of the engine, with the counts that the rule
makes (`Inside.step_recount`).  So the pointers, the schedule and the tape come out the same.  The
count of steps and the counts of the instructions are raised by one in a step, and a run is too short
for them to leave the words.  But `E` can tick 255 times in a step, each tick can bring about a
redirect, and these are counted one by one.  Within 2⁶² steps their count can leave the words, and
what it does then is for the rule to say.

Sizes and the number of the ticks to be erased are natural numbers in the engine.  They are bounded
by the length of the program, by the number of steps and by the cells.
-/
import TimeTape.Proofs.Accounting
import TimeTape.Proofs.Ranges
import TimeTape.Proofs.Records

namespace TimeTape

/-! ### Rules that leave the words alone -/

namespace Arithmetic

variable {a : Arithmetic} {c : UInt64} {k : Nat}

/-- Whether an arithmetic changes nothing about results that are words. -/
structure KeepsWords (a : Arithmetic) : Prop where
  reduce : ∀ n, FitsWord n → a.reduce n = n
  next : ∀ c : UInt64, c.toNat + 1 < UInt64.size → a.next c = c + 1

theorem keepsWords_wrapping : wrapping.KeepsWords :=
  ⟨fun _ hfits => wrap_of_fits hfits, fun _ _ => rfl⟩

/-- The arithmetic in which a count stays at the last word. -/
def saturating : Arithmetic where
  reduce := wrap
  next c := if c.toNat + 1 < UInt64.size then c + 1 else c

theorem keepsWords_saturating : saturating.KeepsWords :=
  ⟨fun _ hfits => wrap_of_fits hfits, fun _ hlt => if_pos hlt⟩

theorem KeepsWords.eq_wrap (h : a.KeepsWords) {n : Int} (hfits : FitsWord n) :
    a.reduce n = wrap n := by
  rw [h.reduce n hfits, wrap_of_fits hfits]

theorem toNat_add_one_of_lt (h : c.toNat + 1 < UInt64.size) : (c + 1).toNat = c.toNat + 1 := by
  rw [UInt64.toNat_add, UInt64.toNat_one, Nat.mod_eq_of_lt h]

theorem wrapping_iterate_next (k : Nat) (c : UInt64) :
    wrapping.next^[k] c = c + UInt64.ofNat k := by
  induction k generalizing c with
  | zero => simp
  | succ k ih =>
      rw [Function.iterate_succ_apply, ih, wrapping_next, UInt64.add_assoc, UInt64.ofNat_add,
        UInt64.add_comm (UInt64.ofNat k)]
      rfl

/-- As long as the words suffice, counting comes to the same. -/
theorem KeepsWords.iterate_next (h : a.KeepsWords) (hlt : c.toNat + k < UInt64.size) :
    a.next^[k] c = wrapping.next^[k] c := by
  induction k generalizing c with
  | zero => rfl
  | succ k ih =>
      have hone : c.toNat + 1 < UInt64.size := by omega
      rw [Function.iterate_succ_apply, Function.iterate_succ_apply, h.next c hone, wrapping_next]
      exact ih (by rw [toNat_add_one_of_lt hone]; omega)

theorem saturating_iterate_next (hge : UInt64.size ≤ c.toNat + k) :
    (saturating.next^[k] c).toNat + 1 = UInt64.size := by
  induction k generalizing c with
  | zero => exact absurd c.toNat_lt_size (by omega)
  | succ k ih =>
      rw [Function.iterate_succ_apply]
      by_cases hone : c.toNat + 1 < UInt64.size
      · have hgoes : saturating.next c = c + 1 := if_pos hone
        rw [hgoes]
        exact ih (by rw [toNat_add_one_of_lt hone]; omega)
      · have hlast : saturating.next c = c := if_neg hone
        have hsize := c.toNat_lt_size
        rw [hlast, Function.iterate_fixed hlast]
        omega

/-- Only as long as the words suffice does counting come to the same under all rules. -/
theorem iterate_next_eq_iff (hk : k < UInt64.size) :
    (∀ a : Arithmetic, a.KeepsWords → a.next^[k] c = wrapping.next^[k] c) ↔
      c.toNat + k < UInt64.size := by
  constructor
  · intro hall
    by_contra hge
    have hlast := saturating_iterate_next (Nat.not_lt.mp hge)
    -- Wrapping around, the count starts again from zero and does not come as far as the last word.
    have hfirst : (wrapping.next^[k] c).toNat = (c.toNat + k) % UInt64.size := by
      rw [wrapping_iterate_next, UInt64.toNat_add, UInt64.toNat_ofNat_of_lt' hk]
    have hsize := c.toNat_lt_size
    rw [hall saturating keepsWords_saturating, hfirst, Nat.mod_eq_sub_mod (Nat.not_lt.mp hge),
      Nat.mod_eq_of_lt (by omega)] at hlast
    omega
  · exact fun hlt a h => h.iterate_next hlt

end Arithmetic

/-- The profile with `n` more redirects counted, by the rules of an arithmetic. -/
def Profile.redirectedBy (a : Arithmetic) (n : Nat) (p : Profile) : Profile :=
  { p with redirects := a.next^[n] p.redirects }

theorem Profile.redirectedBy_zero (a : Arithmetic) : redirectedBy a 0 = id := rfl

theorem Profile.redirectedBy_add (a : Arithmetic) (j k : Nat) (p : Profile) :
    redirectedBy a k (redirectedBy a j p) = redirectedBy a (j + k) p := by
  rw [Nat.add_comm, redirectedBy, redirectedBy, redirectedBy, Function.iterate_add_apply]

/-- What `n` steps at most can have made of a profile. -/
structure Profile.Within (n : Nat) (p : Profile) : Prop where
  total : p.total.toNat ≤ n
  tally : ∀ i : Int, ((p.tallies[i]?.map Tally.count).getD 0).toNat ≤ n
  redirects : p.redirects.toNat ≤ 256 * n

theorem toNat_add_one_le (c : UInt64) : (c + 1).toNat ≤ c.toNat + 1 := by
  rw [UInt64.toNat_add, UInt64.toNat_one]
  exact Nat.mod_le _ _

theorem Profile.Within.later {n k : Nat} {p : Profile} (h : p.Within n) (hk : k ≤ 256) (i : Int)
    (g : UInt8) : ((p.record i g).redirected k).Within (n + 1) := by
  refine ⟨?_, ?_, ?_⟩
  · exact Nat.le_trans (toNat_add_one_le _) (Nat.succ_le_succ h.total)
  · intro j
    show ((((p.tallies.insert i _)[j]?).map Tally.count).getD 0).toNat ≤ n + 1
    rw [Std.TreeMap.getElem?_insert]
    split
    · exact Nat.le_trans (toNat_add_one_le _) (Nat.succ_le_succ (h.tally i))
    · exact Nat.le_succ_of_le (h.tally j)
  · show (p.redirects + UInt64.ofNat k).toNat ≤ _
    have hk' : (UInt64.ofNat k).toNat = k := UInt64.toNat_ofNat_of_lt' (by simp [UInt64.size]; omega)
    have hsum := h.redirects
    rw [UInt64.toNat_add, hk']
    exact Nat.le_trans (Nat.mod_le _ _) (by omega)

/-- As long as the words suffice, an execution is recorded alike. -/
theorem Profile.Within.record_eq {n : Nat} {p : Profile} (h : p.Within n)
    (hn : n + 1 < UInt64.size) {a : Arithmetic} (hkeeps : a.KeepsWords) (i : Int) (g : UInt8) :
    p.record i g a = p.record i g := by
  have htotal := h.total
  have htally := h.tally i
  simp only [record, hkeeps.next _ (show p.total.toNat + 1 < UInt64.size by omega),
    hkeeps.next _ (show ((p.tallies[i]?.map Tally.count).getD 0).toNat + 1 < UInt64.size by omega)]
  rfl

namespace Machine

open Arithmetic

variable {code : Bytes} {m m' : Machine} {g : UInt8} {a : Arithmetic} {s : UInt64}
  {p : Option Profile}

/-! ### A step apart from its counts -/

/-- The redaction that puts other counts in the place of those of a machine. -/
def Redaction.counts (s : UInt64) (p : Option Profile) : Redaction where
  profile _ := p
  steps _ := s
  noted _ _ _ := rfl
  written := Redaction.write_id

/-- The machine with other counts of its steps and of what it has executed. -/
def recount (s : UInt64) (p : Option Profile) (m : Machine) : Machine :=
  { m with steps := s, profile := p }

theorem recount_eq_redact : m.recount s p = m.redact (Redaction.counts s p) := rfl

theorem recount_status : (m.recount s p).status = m.status := rfl

section Rule

variable (hkeeps : a.KeepsWords)

include hkeeps

theorem tick_recount (htimed : ∀ r ∈ m.schedule, r.Timed) (g : UInt8) :
    (m.recount s p).tick g a =
      ((m.tick g).1.recount s
        (p.map (Profile.redirectedBy a (m.schedule.tick m.ip).2.toList.length)),
        (m.tick g).2) := by
  have hsame : m.schedule.tick m.ip a = m.schedule.tick m.ip := by
    cases hs : m.schedule with
    | nil => rfl
    | cons top below =>
        rw [hs] at htimed
        have hfits := (List.forall_mem_cons.mp htimed).1.fits
        simp only [Schedule.tick, hkeeps.eq_wrap hfits]
        rfl
  have hschedule : (m.recount s p).schedule.tick (m.recount s p).ip a = m.schedule.tick m.ip :=
    hsame
  unfold tick
  rw [hschedule]
  rcases m.schedule.tick m.ip with ⟨schedule, target?⟩
  cases target? with
  | none => simp [Profile.redirectedBy_zero, recount]
  | some target =>
      simp only [recount_eq_redact, note_redact]
      rfl

theorem skipTicks_recount (htimed : ∀ r ∈ m.schedule, r.Timed) (n : Nat) :
    skipTicks n (m.recount s p) a =
      (skipTicks n m).recount s
        (p.map (Profile.redirectedBy a (m.schedule.calls m.ip n).length)) := by
  induction n with
  | zero => simp [skipTicks, Schedule.calls, Profile.redirectedBy_zero]
  | succ n ih =>
      obtain ⟨notes, hskip⟩ := m.exists_skipTicks n
      have hcall : ((skipTicks n m).schedule.tick (skipTicks n m).ip).2
          = m.schedule.driftCall m.ip n := by
        rw [hskip]
        rfl
      rw [skipTicks_succ, ih, tick_recount hkeeps (skipTicks_timed htimed n), skipTicks_succ, hcall,
        Schedule.calls_succ, List.length_append, Option.map_map]
      simp only [Function.comp_def, Profile.redirectedBy_add]

end Rule

theorem count_recount (g : UInt8) :
    (m.recount s p).count g a =
      (m.count g).recount (a.next s) (p.map fun p => p.record m.ip g a) := by
  rw [count_eq, count_eq, recount_eq_redact, note_redact]
  rfl

section Bounds

variable (hkeeps : a.KeepsWords) (hcode : Roomy code.length) (h : Inside code m)
  (hmp : FitsWord (m.mp + m.direction.delta))

include hkeeps hcode h

/-- A byte that does not tick computes nothing but words. -/
theorem Inside.execute_eq (hmp : FitsWord (m.mp + m.direction.delta))
    (hg : g ≠ Instruction.erase.glyph) : m.execute g a = m.execute g := by
  have hcell := fits_cell m.cell m.direction
  have hstride : m.stride m.cell a = m.stride m.cell := hkeeps.eq_wrap hcell.1
  have hleap := (near_of_leap hcode h.pointer m.direction m.cell.toNat_lt).1
  rw [← stride_eq] at hleap
  have hon := (fits_of_near hcode (near_of_place h.pointer) m.direction).1
  unfold Machine.execute
  cases hi : Instruction.ofGlyph? g with
  | none => rfl
  | some i =>
      cases i with
      | erase => exact absurd (Instruction.ofGlyph?_eq_some_iff.mp hi) hg
      | jump =>
          simp only [withCell_eq h.cell, hstride, hkeeps.eq_wrap hleap]
          rfl
      | wait =>
          have hperiod := hkeeps.eq_wrap (Redirect.timed_wait m.cell 0).fits
          simp only [Redirect.after] at hperiod
          simp only [withCell_eq h.cell, Redirect.after, hkeeps.eq_wrap hon, hperiod]
          rfl
      | persist =>
          have hperiod := hkeeps.eq_wrap (Redirect.timed_persist m.cell 0).fits
          simp only [Redirect.after] at hperiod
          simp only [withCell_eq h.cell, Redirect.after, hstride, hkeeps.eq_wrap hleap,
            hkeeps.reduce _ hcell.2.1, wrapping_reduce, wrap_add_one, hperiod]
      | plus =>
          have hadd : m.tape.add? m.mp m.direction.delta a = m.tape.add? m.mp m.direction.delta := by
            unfold Tape.add?
            refine congrArg _ (funext fun read => ?_)
            cases read with
            | mk c t =>
                simp only [hkeeps.eq_wrap (fits_cell c m.direction).2.2]
                rfl
          simp only [hadd]
      | move =>
          simp only [hkeeps.eq_wrap hmp]
          rfl
      | _ => rfl

theorem Inside.execute_recount (htimed : ∀ r ∈ m.schedule, r.Timed)
    (hmp : FitsWord (m.mp + m.direction.delta)) (g : UInt8) :
    (m.recount s p).execute g a =
      ((m.execute g).1.recount s (p.map (Profile.redirectedBy a (m.erasedCalls g).length)),
        (m.execute g).2) := by
  unfold erasedCalls
  by_cases herase : g = Instruction.erase.glyph
  · have hcell : (m.recount s p).OnTape := h.cell
    subst herase
    rw [if_pos rfl, Machine.execute, Machine.execute, Instruction.ofGlyph?_glyph]
    simp only [withCell_eq h.cell, withCell_eq hcell]
    have hskip := skipTicks_recount (s := s) (p := p) hkeeps htimed m.cell.toNat
    have hsame : (m.recount s p).cell = m.cell := rfl
    have hsetting : (m.recount s p).options.eraseMovesPointer = m.options.eraseMovesPointer := rfl
    rw [hsame, hsetting, hskip]
    split <;> rfl
  · have hother := m.execute_redact g (Redaction.counts s p) a (fun _ _ => rfl)
      fun hg => absurd hg herase
    rw [if_neg herase, List.length_nil, Profile.redirectedBy_zero, Option.map_id, recount_eq_redact,
      hother, h.execute_eq hkeeps hcode hmp herase]
    rfl

/-- A step is the same under every such rule, with the counts that the rule makes. -/
theorem Inside.step_recount (hrunning : m.status = .running)
    (htimed : ∀ r ∈ m.schedule, r.Timed) (hmp : FitsWord (m.mp + m.direction.delta)) :
    (m.recount s p).step a =
      m.step.recount (a.next s) (p.map fun p =>
        (p.record m.poised.ip m.dispatched a).redirectedBy a m.redirections.length) := by
  have hfits : FitsWord (m.poised.mp + m.poised.direction.delta) := by
    rw [poised_mp, poised_direction]
    exact hmp
  have hglyph : (m.recount s p).glyphAt (m.recount s p).ip = m.glyphAt m.ip := rfl
  have hticked : (m.tick (m.glyphAt m.ip)).1.ip = m.poised.ip := by simp [Machine.poised]
  have hstep : (m.recount s p).step a =
      goOn ((m.poised.recount (a.next s)
        ((p.map (Profile.redirectedBy a m.redirect?.toList.length)).map fun p =>
          p.record m.poised.ip m.dispatched a)).execute m.dispatched a) a := by
    rw [Machine.step, show (m.recount s p).status = .running from hrunning]
    simp only [cycle, hglyph, tick_recount hkeeps htimed, count_recount, hticked]
    rfl
  -- The redirects of the tick and those in the ticks that are erased make up those of the step.
  have hcounts : ((p.map (Profile.redirectedBy a m.redirect?.toList.length)).map fun p =>
        p.record m.poised.ip m.dispatched a).map
          (Profile.redirectedBy a (m.poised.erasedCalls m.dispatched).length)
      = p.map fun p =>
        (p.record m.poised.ip m.dispatched a).redirectedBy a m.redirections.length := by
    rw [Option.map_map, Option.map_map, redirections, List.length_append]
    congr 1
    funext p
    exact Profile.redirectedBy_add a _ _ (p.record m.poised.ip m.dispatched a)
  rw [hstep, h.poised.execute_recount hkeeps hcode (poised_timed htimed) hfits, hcounts,
    step_of_running hrunning]
  cases hexec : m.poised.execute m.dispatched with
  | mk m' fault? =>
      cases fault? with
      | some fault => rfl
      | none =>
          have hnear := h.poised.execute_near hcode hexec
          have hon := hkeeps.eq_wrap (fits_of_near hcode hnear m'.direction).1
          have hmove : m'.moveOn a = m'.moveOn := by
            simp only [moveOn, hon]
            rfl
          have hother := m'.moveOn_redact (Redaction.counts (a.next s) (p.map fun p =>
            (p.record m.poised.ip m.dispatched a).redirectedBy a m.redirections.length)) a
          rw [hmove] at hother
          exact hother

end Bounds

/-! ### How far the counts go -/

/-- The redirects of a step: one in its tick, and one for each tick that is erased, at most. -/
theorem length_redirections_le (m : Machine) : m.redirections.length ≤ 256 := by
  have htick : m.redirect?.toList.length ≤ 1 := by cases m.redirect? <;> simp
  have herased : (m.poised.erasedCalls m.dispatched).length ≤ 255 := by
    unfold erasedCalls
    split
    · have hcell : m.poised.cell.toNat < 256 := m.poised.cell.toNat_lt
      have hcalls := List.length_filterMap_le (m.poised.schedule.driftCall m.poised.ip)
        (List.range m.poised.cell.toNat)
      rw [List.length_range] at hcalls
      exact Nat.le_trans hcalls (by omega)
    · exact Nat.zero_le _
  rw [redirections, List.length_append]
  omega

section Run

variable {options : Options} {source : Source} {sink : Sink}

theorem within_stepMany (n : Nat) :
    ∀ p, (stepMany n (start code options source sink)).profile = some p → p.Within n := by
  induction n with
  | zero =>
      intro p hp
      have hfirst : (start code options source sink).profile
          = if options.profile then some {} else none := by
        simp [start]
      rw [stepMany, hfirst] at hp
      split at hp
      · obtain rfl := Option.some.inj hp
        constructor <;> simp
      · cases hp
  | succ n ih =>
      intro p hp
      rw [stepMany_succ] at hp
      by_cases hrunning : (stepMany n (start code options source sink)).status = .running
      · have hin := (reached code options source sink n).running hrunning
        rw [hin.step_profile hrunning] at hp
        obtain ⟨before, hbefore, rfl⟩ := Option.map_eq_some_iff.mp hp
        exact (ih before hbefore).later (length_redirections_le _) _ _
      · rw [step_of_stopped hrunning] at hp
        obtain ⟨htotal, htally, hredirects⟩ := ih p hp
        exact ⟨by omega, fun i => Nat.le_succ_of_le (htally i), by omega⟩

end Run

/-! ### Steps under other rules -/

/-- The machine with another count of redirects, if it keeps one. -/
def withRedirects (c : UInt64) (m : Machine) : Machine :=
  { m with profile := m.profile.map fun p => { p with redirects := c } }

theorem withRedirects_of_none (h : m.profile = none) (c : UInt64) : m.withRedirects c = m := by
  rw [withRedirects, h, Option.map_none, ← h]

theorem withRedirects_inj {p : Profile} (h : m.profile = some p) {c c' : UInt64} :
    m.withRedirects c = m.withRedirects c' ↔ c = c' := by
  constructor
  · intro heq
    have hprofile := congrArg Machine.profile heq
    simp only [withRedirects, h, Option.map_some, Option.some.injEq] at hprofile
    exact congrArg Profile.redirects hprofile
  · exact fun heq => by rw [heq]

/-- The redirects that have been counted, none without a profile. -/
def redirects (m : Machine) : UInt64 :=
  (m.profile.map Profile.redirects).getD 0

theorem withRedirects_redirects (m : Machine) : m.withRedirects m.redirects = m := by
  cases hp : m.profile with
  | none => exact withRedirects_of_none hp _
  | some p =>
      rw [withRedirects, redirects, hp]
      exact congrArg (fun p => { m with profile := p }) hp.symm

/-- A running machine whose numbers leave room for a step, whatever its count of redirects. -/
structure InRange (code : Bytes) (m : Machine) : Prop where
  running : m.status = .running
  inside : Inside code m
  timed : ∀ r ∈ m.schedule, r.Timed
  mp : FitsWord (m.mp + m.direction.delta)
  steps : m.steps.toNat + 1 < UInt64.size
  profile : ∀ p, m.profile = some p → ∃ n, n + 1 < UInt64.size ∧ p.Within n

namespace InRange

variable (hcode : Roomy code.length) (h : InRange code m)

include hcode h

/-- Under every rule, a step is that of the engine but for the count of redirects. -/
theorem step_eq (hkeeps : a.KeepsWords) :
    m.step a = m.step.withRedirects (a.next^[m.redirections.length] m.redirects) := by
  have hrule := h.inside.step_recount (s := m.steps) (p := m.profile) hkeeps hcode h.running
    h.timed h.mp
  have hwords := h.inside.step_recount (s := m.steps) (p := m.profile) keepsWords_wrapping hcode
    h.running h.timed h.mp
  have hself : m.recount m.steps m.profile = m := rfl
  rw [hself] at hrule hwords
  rw [hkeeps.next _ h.steps] at hrule
  have hsteps : m.step.steps = m.steps + 1 := congrArg Machine.steps hwords
  have hprofile := congrArg Machine.profile hwords
  have hredirects : m.step.withRedirects (a.next^[m.redirections.length] m.redirects)
      = m.step.recount m.step.steps (m.step.profile.map fun p =>
          { p with redirects := a.next^[m.redirections.length] m.redirects }) := rfl
  rw [hrule, hredirects, hsteps, hprofile]
  cases hp : m.profile with
  | none => rfl
  | some p =>
      obtain ⟨n, hn, hwithin⟩ := h.profile p hp
      have hcount : m.redirects = p.redirects := by rw [redirects, hp]; rfl
      simp only [recount, Option.map_some, hwithin.record_eq hn hkeeps, hcount]
      rfl

/-- So it is the step of the engine, under all of them, if the words suffice for that count. -/
theorem forall_step_eq_iff :
    (∀ a : Arithmetic, a.KeepsWords → m.step a = m.step) ↔
      ∀ p, m.profile = some p → p.redirects.toNat + m.redirections.length < UInt64.size := by
  have hk : m.redirections.length < UInt64.size :=
    Nat.lt_of_le_of_lt (length_redirections_le m) (by decide)
  have hwords := h.step_eq hcode keepsWords_wrapping
  have hprofile := h.inside.step_profile h.running
  cases hp : m.profile with
  | none =>
      rw [hp, Option.map_none] at hprofile
      have hsame : ∀ c, m.step.withRedirects c = m.step := fun c => withRedirects_of_none hprofile c
      constructor
      · intro _ p hsome
        cases hsome
      · intro _ a hkeeps
        rw [h.step_eq hcode hkeeps, hsame]
  | some p =>
      rw [hp, Option.map_some] at hprofile
      have hcount : m.redirects = p.redirects := by rw [redirects, hp]; rfl
      have hcounts : ∀ a : Arithmetic, a.KeepsWords → (m.step a = m.step ↔
          a.next^[m.redirections.length] p.redirects
            = wrapping.next^[m.redirections.length] p.redirects) := by
        intro a hkeeps
        rw [h.step_eq hcode hkeeps, hcount]
        nth_rewrite 2 [hwords]
        rw [hcount, withRedirects_inj hprofile]
      simp only [Option.some.injEq, forall_eq']
      rw [← iterate_next_eq_iff hk]
      exact forall_congr' fun a => forall_congr' fun hkeeps => hcounts a hkeeps

end InRange

/-- The machines of a run that is short enough are in range. -/
theorem inRange_stepMany {options : Options} {source : Source} {sink : Sink}
    (hcode : Roomy code.length) {n : Nat} (hn : Roomy n)
    (hrunning : (stepMany n (start code options source sink)).status = .running) :
    InRange code (stepMany n (start code options source sink)) := by
  have hbounded : Bounded code (stepMany n (start code options source sink)) := bounded hcode hn
  have hsteps : (stepMany n (start code options source sink)).steps.toNat ≤ n := steps_le n
  obtain ⟨hlo, hhi⟩ := (stepMany n (start code options source sink)).direction.delta_bounds
  have hge := hbounded.mp_ge
  have hle := hbounded.mp_le
  unfold Roomy at hn
  have hroom : n + 1 < UInt64.size := by simp [UInt64.size]; omega
  refine ⟨hrunning, (reached code options source sink n).running hrunning, hbounded.timed,
    ⟨by omega, by omega⟩, by omega, ?_⟩
  exact fun p hp => ⟨n, hroom, within_stepMany n p hp⟩

/-! ### All the numbers of a run -/

/--
**The arithmetic of a run stays in range, but for the count of redirects.**  Let a program have fewer
than 2⁶² bytes, and let fewer than 2⁶² steps be taken.

The pointer is then at most 256 places before the start or behind the end of the program.  Every
redirect counts from 256 at most down to zero, with a period from -1 to 255 that is not negative if
it recurs, and is never more than one tick from a full period; its target is at most 255 places
outside the program.  The memory pointer is at most the number of steps, and is -1 only after a
failure, but never less.  The last cell of the tape is the farthest that the memory pointer has been.
The image in use has the bytes of the program, and no more redirects are pending than steps have
been taken.  The next step is counted.

So a step computes nothing that is not a word, unless it is the count of redirects: under every rule
for what is not a word, it differs from the step of the engine in that count at most.  It does not
differ at all, whatever the rule, if and only if the machine has stopped, keeps no profile, or has
counted so few redirects that a word can count those of this step as well.  That is so for the
first 2⁵⁶ - 1 steps.
-/
theorem arithmetic_stays_in_range (code : Bytes) (options : Options) (source : Source)
    (sink : Sink) (hcode : Roomy code.length) (n : Nat) (hn : Roomy n) :
    let first := start code options source sink
    let m := stepMany n first
    (-256 ≤ m.ip ∧ m.ip ≤ code.length + 255) ∧
      (∀ r ∈ m.schedule,
        (0 ≤ r.countdown ∧ r.countdown ≤ 256) ∧
        (-1 ≤ r.period ∧ r.period ≤ 255) ∧ (r.recurring = true → 0 ≤ r.period) ∧
        r.countdown ≤ r.period + 1 ∧
        (-255 ≤ r.target ∧ r.target ≤ code.length + 254)) ∧
      (-1 ≤ m.mp ∧ m.mp ≤ m.steps.toNat ∧ (m.mp = -1 → m.failure? ≠ none)) ∧
      IsGreatest {p : Int | ∃ j ≤ n, p = (stepMany j first).mp} (m.tape.size - 1) ∧
      (m.image.size = code.length ∧ m.schedule.length ≤ m.steps.toNat) ∧
      (m.status = .running → m.step.steps.toNat = m.steps.toNat + 1) ∧
      (∀ a : Arithmetic, a.KeepsWords → ∃ c, m.step a = m.step.withRedirects c) ∧
      ((∀ a : Arithmetic, a.KeepsWords → m.step a = m.step) ↔
        (m.status = .running → ∀ p, m.profile = some p →
          p.redirects.toNat + m.redirections.length < UInt64.size)) ∧
      (n + 1 < 72057594037927936 → ∀ a : Arithmetic, a.KeepsWords → m.step a = m.step) := by
  intro first m
  have hreached : Reached code m := reached code options source sink n
  have hbounded : Bounded code m := bounded hcode hn
  have hsteps : Roomy m.steps.toNat := Nat.lt_of_le_of_lt (steps_le n) hn
  have hstopped : m.status ≠ .running → ∀ a : Arithmetic, m.step a = m.step := by
    intro hnot a
    rw [step_of_stopped hnot, step_of_stopped hnot]
  have hexact : (∀ a : Arithmetic, a.KeepsWords → m.step a = m.step) ↔
      (m.status = .running → ∀ p, m.profile = some p →
        p.redirects.toNat + m.redirections.length < UInt64.size) := by
    by_cases hrunning : m.status = .running
    · rw [(inRange_stepMany hcode hn hrunning).forall_step_eq_iff hcode]
      exact ⟨fun hall _ => hall, fun hall => hall hrunning⟩
    · exact ⟨fun _ hnot => absurd hnot hrunning, fun _ a _ => hstopped hrunning a⟩
  refine ⟨⟨hbounded.ip_ge, hbounded.ip_le⟩, ?_, ?_, size_isGreatest n, ?_, ?_, ?_, hexact, ?_⟩
  · intro r hr
    obtain ⟨⟨hlo, hhi, hperiod, hrecurring⟩, hge, hle⟩ := hbounded.redirects r hr
    exact ⟨⟨hlo, by omega⟩, ⟨by omega, hperiod⟩, hrecurring, hhi, hge, hle⟩
  · exact ⟨hbounded.mp_ge, hbounded.mp_le, hbounded.failed⟩
  · exact ⟨size_image hreached.program, hbounded.pending⟩
  · exact fun hrunning => (hreached.running hrunning).count_step hrunning hsteps
  · intro a hkeeps
    by_cases hrunning : m.status = .running
    · exact ⟨_, (inRange_stepMany hcode hn hrunning).step_eq hcode hkeeps⟩
    · exact ⟨m.redirects, by
        rw [hstopped hrunning, step_of_stopped hrunning, withRedirects_redirects]⟩
  · intro hfew
    refine hexact.mpr fun _ p hp => ?_
    have hcount := (within_stepMany n p hp).redirects
    have hfired := length_redirections_le m
    simp only [UInt64.size]
    omega

/--
The program `+P+R` comes back to its `P` with 255 in the cell.  The step that executes it, the sixth,
goes 255 places before the start and schedules a redirect with the longest countdown there is.
-/
theorem arithmetic_stays_in_range_before_start :
    let m := stepMany 5 (start [0x2B, 0x50, 0x2B, 0x52] { profile := true } {} {})
    m.step.ip = -255 ∧
      m.step.schedule.head? =
        some { countdown := 256, target := -254, recurring := true, period := 255 } ∧
      ∀ a : Arithmetic, a.KeepsWords → m.step a = m.step :=
  ⟨by decide +kernel, by decide +kernel,
    (arithmetic_stays_in_range [0x2B, 0x50, 0x2B, 0x52] { profile := true } {} {}
      (show 4 < _ by decide) 5 (show 5 < _ by decide)).2.2.2.2.2.2.2.2 (by decide)⟩

/-! ### A count that leaves the words -/

theorem redirections_recount : (m.recount s p).redirections = m.redirections := by
  simp only [redirections, erasedCalls, dispatched_eq, poised_ip, poised_schedule, poised_cell]
  rfl

/-- A machine with other counts goes the same way, and counts the same redirects. -/
theorem exists_stepMany_recount (hcode : Roomy code.length) {k : Nat}
    (h : ∀ j < k, InRange code (stepMany j m)) (s : UInt64) (p : Profile) :
    ∃ s' p', stepMany k (m.recount s (some p)) = (stepMany k m).recount s' (some p') ∧
      p'.redirects = p.redirects + UInt64.ofNat ((path k m).flatMap redirections).length := by
  induction k with
  | zero => exact ⟨s, p, rfl, by simp [path]⟩
  | succ k ih =>
      obtain ⟨s', p', hmachine, hcount⟩ := ih fun j hj => h j (by omega)
      have hrange := h k (by omega)
      have hstep := hrange.inside.step_recount (s := s') (p := some p') keepsWords_wrapping hcode
        hrange.running hrange.timed hrange.mp
      rw [stepMany_succ, hmachine, stepMany_succ]
      refine ⟨_, _, hstep, ?_⟩
      show wrapping.next^[_] p'.redirects = _
      rw [wrapping_iterate_next, hcount, UInt64.add_assoc, ← UInt64.ofNat_add, path_concat,
        List.flatMap_append, List.flatMap_singleton, List.length_append]

/-- A machine that comes back to where it was, but for its counts, does so again and again. -/
theorem exists_rounds (hcode : Roomy code.length) {k : Nat}
    (h : ∀ j < k, InRange code (stepMany j m)) {s : UInt64} {p' : Option Profile}
    (hback : stepMany k m = m.recount s p') {p : Profile} (hp : m.profile = some p) (rounds : Nat) :
    ∃ s p', stepMany (k * rounds) m = m.recount s (some p') ∧
      p'.redirects
        = p.redirects + UInt64.ofNat (rounds * ((path k m).flatMap redirections).length) := by
  induction rounds with
  | zero => exact ⟨m.steps, p, by rw [← hp]; rfl, by simp⟩
  | succ rounds ih =>
      obtain ⟨s', p', hmachine, hcount⟩ := ih
      obtain ⟨s'', p'', hround, hmore⟩ := exists_stepMany_recount hcode h s' p'
      refine ⟨s'', p'', ?_, ?_⟩
      · rw [Nat.mul_succ, stepMany_add, hmachine, hround, hback]
        rfl
      · rw [hmore, hcount, UInt64.add_assoc, ← UInt64.ofNat_add, Nat.succ_mul]

/-- Two machines that agree in everything but their counts. -/
theorem eq_recount (hprogram : m'.program = m.program) (hnotes : m'.notes = m.notes)
    (hrest : m'.options = m.options ∧ (m'.ip = m.ip ∧ m'.mp = m.mp ∧ m'.direction = m.direction) ∧
      (m'.schedule = m.schedule ∧ m'.tape = m.tape) ∧ m'.source = m.source ∧ m'.sink = m.sink ∧
      m'.status = m.status) : m' = m.recount m'.steps m'.profile := by
  cases m
  cases m'
  obtain ⟨rfl, ⟨rfl, rfl, rfl⟩, ⟨rfl, rfl⟩, rfl, rfl, rfl⟩ := hrest
  obtain rfl := hprogram
  obtain rfl := hnotes
  rfl

/--
The program `+P++++++{E}`, with closers that jump back while the cell is not zero.  After 22 steps it
goes round in circles of four steps, in which 24 ticks are erased and 28 redirects come about.  So
their count leaves the words within 2⁶² steps.  The step that is shown here takes it past the last
word and leaves it at 8, and it is not the same step under all rules that keep the words.
-/
theorem redirect_count_leaves_words :
    let code : Bytes := [0x2B, 0x50, 0x2B, 0x2B, 0x2B, 0x2B, 0x2B, 0x2B, 0x7B, 0x45, 0x7D]
    let first := start code { repeatOnNonZero := true, profile := true } {} {}
    let m := stepMany 2635249153387078814 first
    (Roomy code.length ∧ Roomy 2635249153387078814) ∧
      m.profile.map Profile.redirects = some 18446744073709551611 ∧
      m.step.profile.map Profile.redirects = some 8 ∧
      ¬∀ a : Arithmetic, a.KeepsWords → m.step a = m.step := by
  generalize hN : 2635249153387078814 = N
  intro code first m
  have hroomy : Roomy N := show N < _ by omega
  have hcode : Roomy code.length := show 11 < _ by decide
  have hreach : ∀ n, Roomy n → (stepMany n first).status = .running →
      InRange code (stepMany n first) := fun _ => inRange_stepMany hcode
  have hrunning : ∀ j < 4, (stepMany (22 + j) first).status = .running := by decide +kernel
  have hrange : ∀ j < 4, InRange code (stepMany j (stepMany 22 first)) := by
    intro j hj
    rw [← stepMany_add]
    exact hreach _ (show 22 + j < _ by omega) (hrunning j hj)
  have hnotes : (stepMany 22 first).notes.length = 0 ∧
      (stepMany 4 (stepMany 22 first)).notes.length = 0 := by decide +kernel
  have hback : stepMany 4 (stepMany 22 first) = (stepMany 22 first).recount
      (stepMany 4 (stepMany 22 first)).steps (stepMany 4 (stepMany 22 first)).profile := by
    refine eq_recount ?_ ?_ (by decide +kernel)
    · rw [((reached code _ _ _ 22).later 4).program, (reached code _ _ _ 22).program]
    · rw [List.eq_nil_of_length_eq_zero hnotes.1, List.eq_nil_of_length_eq_zero hnotes.2]
  have hfired : ((path 4 (stepMany 22 first)).flatMap redirections).length = 28 := by decide +kernel
  obtain ⟨p, hp, hcount⟩ := Option.map_eq_some_iff.mp
    (show (stepMany 22 first).profile.map Profile.redirects = some 67 by decide +kernel)
  obtain ⟨s, p', hmachine, hcounts⟩ := exists_rounds hcode hrange hback hp 658812288346769698
  have hm : m = (stepMany 22 first).recount s (some p') := by
    rw [← hmachine, ← stepMany_add, show 22 + 4 * 658812288346769698 = N by omega]
  have hlast : p'.redirects = 18446744073709551611 := by
    rw [hcounts, hcount, hfired]
    decide +kernel
  have hprofile : m.profile = some p' := by rw [hm]; rfl
  have hnext : m.redirections.length = 13 := by
    rw [hm, redirections_recount]
    decide +kernel
  have hstatus : m.status = .running := by
    rw [hm, recount_status]
    decide +kernel
  have hinRange : InRange code m := hreach N hroomy hstatus
  refine ⟨⟨hcode, hroomy⟩, by rw [hprofile, Option.map_some, hlast], ?_, ?_⟩
  · rw [hinRange.inside.step_profile hstatus, hprofile, hnext]
    show some (p'.redirects + _) = _
    rw [hlast]
    decide +kernel
  · rw [hinRange.forall_step_eq_iff hcode]
    intro hall
    have hlt := hall p' hprofile
    rw [hlast, hnext] at hlt
    exact absurd hlt (by decide +kernel)

end Machine

end TimeTape
