/-
Runs that are called off.

A run under the debugger that is called off in advance executes nothing, and it leaves the machine,
the breakpoints and a pending single step alone.  But the debugger forgets by it that the run before
came back with a stop.  Only the next run asks for that, and only if the machine then stands at an
enabled breakpoint: it is taken for one that has just been come upon, and reported once more.

To see what that amounts to, a session is compared with the same session into which such runs have
been put.  `Forgets` says that they agree but for what has been forgotten.  Every request keeps it
so and is given the same answer, except for a run that asks for a forgotten stop.
-/
import TimeTape.Proofs.Debugging

namespace TimeTape.Debugger

open Machine

variable {limit : UInt64} {d d' first : Debugger} {resuming stepDue : Bool} {fuel : Nat}

/-! ### What the debugger remembers -/

/-- The flag says that the run came back with a stop. -/
theorem paused_loop (hpaused : d.paused = false) :
    (d.loop limit fuel resuming stepDue).1.paused
      = (d.loop limit fuel resuming stepDue).2.stop?.isSome := by
  induction fuel generalizing d resuming stepDue with
  | zero => exact hpaused
  | succ fuel ih =>
      cases hstop : d.pause? resuming stepDue with
      | some stop =>
          rw [loop_of_stop hstop]
          rfl
      | none =>
          rw [loop_of_step hstop]
          by_cases hover : d.machine.step.isOver limit = true
          · rw [if_pos hover]
            exact hpaused
          · rw [if_neg hover]
            exact ih (d := { d with machine := d.machine.step }) hpaused

theorem paused_resume (canceled : Bool) (limit : UInt64) (fuel : Nat) (d : Debugger) :
    (d.resume canceled limit fuel).1.paused = (d.resume canceled limit fuel).2.stop?.isSome := by
  cases canceled with
  | true => rfl
  | false => exact paused_loop (d := { d with paused := false }) rfl

/-- Nothing but a run under the debugger sets the flag, or answers that there was a stop. -/
theorem paused_respond_other (d : Debugger) {request : Request}
    (hother : ∀ canceled limit fuel, request ≠ .resume canceled limit fuel) :
    (d.respond request).1.paused = d.paused ∧ (d.respond request).2.back? = none := by
  cases request with
  | edit e =>
      obtain ⟨breakpoints, refusal?, hrespond⟩ := exists_respond_edit_eq d e
      rw [hrespond]
      exact ⟨rfl, rfl⟩
  | stepInto => exact ⟨rfl, rfl⟩
  | step => exact ⟨rfl, rfl⟩
  | run canceled limit fuel => exact ⟨rfl, rfl⟩
  | resume canceled limit fuel => exact absurd rfl (hother canceled limit fuel)

/-- Throughout a session the flag says that the last run came back with a stop. -/
theorem paused_session (m : Machine) (requests : List Request) :
    (session { machine := m } requests).1.paused
      = followsStop (session { machine := m } requests).2 := by
  induction requests using List.reverseRecOn with
  | nil => rfl
  | append_singleton requests request ih =>
      rw [session_concat]
      by_cases hresume : ∃ canceled limit fuel, request = .resume canceled limit fuel
      · obtain ⟨canceled, limit, fuel, rfl⟩ := hresume
        exact (paused_resume canceled limit fuel _).trans (followsStop_concat_resumed _ _).symm
      · push Not at hresume
        obtain ⟨hpaused, hback⟩ :=
          paused_respond_other (session { machine := m } requests).1 hresume
        rw [followsStop_concat_other _ _ hback]
        exact hpaused.trans ih

/-! ### One request -/

/-- The second debugger is like the first, but may have forgotten that the last run stopped. -/
structure Forgets (d d' : Debugger) : Prop where
  same : d' = { d with paused := d'.paused }
  paused : d'.paused = true → d.paused = true

/-- At the start of a run, a stop is of no account unless a breakpoint is there. -/
theorem loop_of_not_stands (hstands : standsAt d.breaksAt d.machine = false) (resuming : Bool) :
    d.loop limit fuel resuming false = d.loop limit fuel false false := by
  cases fuel with
  | zero => rfl
  | succ fuel =>
      have hgoes : ∀ resuming, d.pause? resuming false = none := by
        intro resuming
        rw [pause?_first, hstands, Bool.and_false]
        rfl
      rw [loop_of_step (hgoes resuming), loop_of_step (hgoes false)]

theorem edit_paused (d : Debugger) (paused : Bool) (e : Edit) :
    ({ d with paused } : Debugger).edit e = (d.edit e).map fun d' => { d' with paused } := by
  cases e with
  | set index =>
      simp only [edit, set]
      split <;> rfl
  | remove index =>
      simp only [edit, remove]
      split <;> rfl
  | enable index | disable index =>
      simp only [edit, setEnabled]
      split <;> rfl
  | clear => rfl

theorem respond_paused (d : Debugger) (paused : Bool) {request : Request}
    (hother : ∀ canceled limit fuel, request ≠ .resume canceled limit fuel) :
    ({ d with paused } : Debugger).respond request
      = ({ (d.respond request).1 with paused }, (d.respond request).2) := by
  cases request with
  | edit e =>
      simp only [respond, edit_paused]
      cases d.edit e <;> rfl
  | stepInto => rfl
  | step => rfl
  | run canceled limit fuel => rfl
  | resume canceled limit fuel => exact absurd rfl (hother canceled limit fuel)

namespace Forgets

/-- Whether a stop has been forgotten makes no difference to a run that does not ask for it. -/
theorem resume (h : Forgets d d')
    (hstands : d.paused = true → d'.paused = false → standsAt d.breaksAt d.machine = false) :
    d'.resume false limit fuel = d.resume false limit fuel := by
  by_cases hsame : d'.paused = d.paused
  · rw [h.same, hsame]
  · have hforgotten : d'.paused = false := by
      by_contra hnot
      rw [Bool.not_eq_false] at hnot
      exact hsame (hnot.trans (h.paused hnot).symm)
    have hpaused : d.paused = true := by
      by_contra hnot
      rw [Bool.not_eq_true] at hnot
      exact hsame (hforgotten.trans hnot.symm)
    have hstart := hstands hpaused hforgotten
    rw [h.same]
    exact (loop_of_not_stands (d := { d with paused := false }) hstart d'.paused).trans
      (loop_of_not_stands (d := { d with paused := false }) hstart d.paused).symm

/-- A request is answered alike, and after it the debuggers are as alike as before. -/
theorem respond (h : Forgets d d') (request : Request)
    (hstands : ∀ limit fuel, request = .resume false limit fuel → d.paused = true →
      d'.paused = false → standsAt d.breaksAt d.machine = false) :
    Forgets (d.respond request).1 (d'.respond request).1 ∧
      (d'.respond request).2 = (d.respond request).2 := by
  by_cases hresume : ∃ canceled limit fuel, request = .resume canceled limit fuel
  · obtain ⟨canceled, limit, fuel, rfl⟩ := hresume
    have hsame : d'.resume canceled limit fuel = d.resume canceled limit fuel := by
      cases canceled with
      | true =>
          rw [h.same]
          rfl
      | false => exact h.resume (hstands limit fuel rfl)
    simp only [Debugger.respond, hsame]
    exact ⟨⟨rfl, id⟩, trivial⟩
  · push Not at hresume
    have hrespond := respond_paused d d'.paused hresume
    rw [← h.same] at hrespond
    rw [hrespond]
    refine ⟨⟨rfl, ?_⟩, rfl⟩
    rw [(paused_respond_other d hresume).1]
    exact h.paused

/-- A run that is called off makes the debugger forget, and does nothing else. -/
theorem canceled (h : Forgets d d') (limit : UInt64) (fuel : Nat) :
    Forgets d (d'.respond (.resume true limit fuel)).1 ∧
      (d'.respond (.resume true limit fuel)).2 = .resumed (.ended .canceled) := by
  refine ⟨⟨?_, ?_⟩, rfl⟩
  · rw [h.same]
    rfl
  · intro hpaused
    cases hpaused

end Forgets

/-! ### A session -/

/-- A request of a session, or a run that is put in between and called off in advance. -/
inductive Call where
  | own (request : Request)
  | extra (limit : UInt64) (fuel : Nat)

namespace Call

/-- What is asked for. -/
def request : Call → Request
  | own request => request
  | extra limit fuel => .resume true limit fuel

/-- The request, if it is one of the session. -/
def own? : Call → Option Request
  | own request => some request
  | extra .. => none

/-- Whether this is a run of the session that is not called off. -/
def isRun : Call → Bool
  | own (.resume false ..) => true
  | _ => false

/-- The answer, if it is one to a request of the session. -/
def answer? : Call × Response → Option Response
  | (own _, answer) => some answer
  | (extra .., _) => none

end Call

/-- The session by itself. -/
def plain (first : Debugger) (calls : List Call) : Debugger × List Response :=
  first.session (calls.filterMap Call.own?)

/-- The session with the runs that are put in between. -/
def padded (first : Debugger) (calls : List Call) : Debugger × List Response :=
  first.session (calls.map Call.request)

/-- The answers to the requests of the session, among the answers to all calls. -/
def ownAnswers (calls : List Call) (answers : List Response) : List Response :=
  (calls.zip answers).filterMap Call.answer?

/-- Whether the last run of the session came back with a stop, which has been forgotten since. -/
def forgotten (first : Debugger) (calls : List Call) : Bool :=
  followsStop (plain first calls).2 && !followsStop (padded first calls).2

/-- Whether the session has led to an enabled breakpoint. -/
def atBreakpoint (first : Debugger) (calls : List Call) : Bool :=
  standsAt (plain first calls).1.breaksAt (plain first calls).1.machine

/-- No run of the session starts at an enabled breakpoint whose stop has been forgotten. -/
def Harmless (first : Debugger) (calls : List Call) : Prop :=
  ∀ k < calls.length, calls[k]?.any Call.isRun = true → forgotten first (calls.take k) = true →
    atBreakpoint first (calls.take k) = false

instance (first : Debugger) (calls : List Call) : Decidable (Harmless first calls) :=
  inferInstanceAs (Decidable (∀ k < calls.length, calls[k]?.any Call.isRun = true →
    forgotten first (calls.take k) = true → atBreakpoint first (calls.take k) = false))

section Calls

variable {calls : List Call} {call : Call}

theorem length_padded (first : Debugger) (calls : List Call) :
    (padded first calls).2.length = calls.length := by
  rw [padded, length_session, List.length_map]

theorem padded_concat (first : Debugger) (calls : List Call) (call : Call) :
    padded first (calls ++ [call])
      = (((padded first calls).1.respond call.request).1,
        (padded first calls).2 ++ [((padded first calls).1.respond call.request).2]) := by
  rw [padded, List.map_append, List.map_singleton, session_concat]
  rfl

theorem plain_concat_own (first : Debugger) (calls : List Call) (request : Request) :
    plain first (calls ++ [.own request])
      = (((plain first calls).1.respond request).1,
        (plain first calls).2 ++ [((plain first calls).1.respond request).2]) := by
  rw [plain, List.filterMap_append]
  exact session_concat first _ request

theorem plain_concat_extra (first : Debugger) (calls : List Call) (limit : UInt64) (fuel : Nat) :
    plain first (calls ++ [.extra limit fuel]) = plain first calls := by
  rw [plain, List.filterMap_append]
  exact congrArg first.session (List.append_nil _)

/-- A stop has been forgotten if the flag that tells of it is set in the session by itself only. -/
theorem forgotten_iff {m : Machine} :
    forgotten { machine := m } calls = true ↔
      (plain { machine := m } calls).1.paused = true ∧
        (padded { machine := m } calls).1.paused = false := by
  rw [forgotten, plain, padded, ← paused_session, ← paused_session, Bool.and_eq_true_iff,
    Bool.not_eq_true']

theorem ownAnswers_concat {answers : List Response} (h : answers.length = calls.length)
    (call : Call) (answer : Response) :
    ownAnswers (calls ++ [call]) (answers ++ [answer])
      = ownAnswers calls answers ++ (Call.answer? (call, answer)).toList := by
  rw [ownAnswers, List.zip_append h.symm, List.filterMap_append, ownAnswers]
  cases call <;> rfl

theorem Harmless.take (h : Harmless first calls) (n : Nat) : Harmless first (calls.take n) := by
  intro k hk hrun hforgotten
  rw [List.length_take] at hk
  rw [List.getElem?_take_of_lt (by omega)] at hrun
  rw [List.take_take, Nat.min_eq_left (by omega)] at hforgotten ⊢
  exact h k (by omega) hrun hforgotten

/-- The runs that are put in between are all answered by saying that they were called off. -/
theorem answer_of_extra {limit : UInt64} {fuel : Nat} {answer : Response}
    (h : (.extra limit fuel, answer) ∈ calls.zip (padded first calls).2) :
    answer = .resumed (.ended .canceled) := by
  induction calls using List.reverseRecOn with
  | nil => cases h
  | append_singleton calls call ih =>
      rw [padded_concat, List.zip_append (length_padded first calls).symm, List.mem_append] at h
      rcases h with h | h
      · exact ih h
      · obtain ⟨rfl, rfl⟩ := Prod.mk.inj (List.mem_singleton.mp h)
        rfl

/-- A session in which no forgotten stop is asked for is answered alike. -/
theorem forgets_session {m : Machine} (h : Harmless { machine := m } calls) :
    Forgets (plain { machine := m } calls).1 (padded { machine := m } calls).1 ∧
      ownAnswers calls (padded { machine := m } calls).2 = (plain { machine := m } calls).2 := by
  induction calls using List.reverseRecOn with
  | nil => exact ⟨⟨rfl, id⟩, rfl⟩
  | append_singleton calls call ih =>
      have hbefore : Harmless { machine := m } calls := by
        simpa using h.take calls.length
      obtain ⟨hforgets, hanswers⟩ := ih hbefore
      rw [padded_concat, ownAnswers_concat (length_padded _ _), hanswers]
      cases call with
      | extra limit fuel =>
          rw [plain_concat_extra]
          exact ⟨(hforgets.canceled limit fuel).1, List.append_nil _⟩
      | own request =>
          have hnext := hforgets.respond request ?_
          · rw [plain_concat_own]
            exact ⟨hnext.1, congrArg ((plain { machine := m } calls).2 ++ [·]) hnext.2⟩
          · intro limit fuel hrun hpaused hforgotten
            have hlast := h calls.length (by simp)
            rw [List.take_left, hrun] at hlast
            exact hlast (by simp [Call.isRun]) (forgotten_iff.mpr ⟨hpaused, hforgotten⟩)

end Calls

/-- A run that asks for a forgotten stop reports it again, and with that the debugger remembers. -/
theorem Forgets.resume_at_breakpoint (h : Forgets d d') (hpaused : d.paused = true)
    (hforgotten : d'.paused = false) (hstands : standsAt d.breaksAt d.machine = true)
    (limit : UInt64) (fuel : Nat) :
    d'.resume false limit (fuel + 1) = (d, .stopped ⟨.breakpoint, d.machine.snapshot⟩) := by
  have hstop : ({ d with paused := false } : Debugger).pause? false false
      = some (.breakpoint, { d with paused := false }) := by
    have hsame : standsAt (breaksAt { d with paused := false }) d.machine = true := hstands
    rw [pause?_first, hsame]
    rfl
  have hd : ({ d with paused := true } : Debugger) = d := by rw [← hpaused]
  rw [h.same, hforgotten]
  exact (loop_of_stop hstop fuel).trans (by rw [hd])

/--
**A run that is called off makes the debugger forget a stop, and does nothing else.**  Take a
machine from its start through any session, and put runs that are called off in advance in between,
anywhere.  Let no run of the session start at an enabled breakpoint whose stop has been forgotten.

Then the session is answered as it is by itself, and each run put in between is answered by saying
that it was called off.  At every point, the machine, the breakpoints and whether a single step is
pending are as they are at that point of the session by itself.

If the next run does start at an enabled breakpoint whose stop has been forgotten, it executes
nothing and reports this stop again, which brings the debugger to where it is in the session by
itself.  There, on the other hand, that run executes at least one instruction.
-/
theorem canceled_run_only_forgets_stop (code : Bytes) (options : Options) (source : Source)
    (sink : Sink) (calls : List Call) :
    let first : Debugger := { machine := start code options source sink }
    Harmless first calls →
    ownAnswers calls (padded first calls).2 = (plain first calls).2 ∧
    (∀ limit fuel answer, (.extra limit fuel, answer) ∈ calls.zip (padded first calls).2 →
      answer = .resumed (.ended .canceled)) ∧
    (∀ k, let d := (plain first (calls.take k)).1
      let d' := (padded first (calls.take k)).1
      d'.machine = d.machine ∧ d'.breakpoints = d.breakpoints ∧ d'.stepping = d.stepping) ∧
    (forgotten first calls = true → atBreakpoint first calls = true →
      ∀ (limit : UInt64) (fuel : Nat), let d := (plain first calls).1
        (padded first calls).1.resume false limit (fuel + 1)
          = (d, .stopped ⟨.breakpoint, d.machine.snapshot⟩) ∧
        ((d.resume false limit (fuel + 1)).2.cutShort = false →
          ∃ l, 0 < l ∧ Executes d.machine l (d.resume false limit (fuel + 1)).1.machine)) := by
  intro first hharmless
  obtain ⟨hforgets, hanswers⟩ := forgets_session hharmless
  refine ⟨hanswers, fun limit fuel answer => answer_of_extra, ?_, ?_⟩
  · intro k d d'
    have hsame : d' = { d with paused := d'.paused } := (forgets_session (hharmless.take k)).1.same
    exact ⟨(congrArg machine hsame :), (congrArg breakpoints hsame :), (congrArg stepping hsame :)⟩
  · intro hforgotten hstands limit fuel d
    obtain ⟨hpaused, hnot⟩ := forgotten_iff.mp hforgotten
    refine ⟨hforgets.resume_at_breakpoint hpaused hnot hstands limit fuel, ?_⟩
    intro hdone
    obtain ⟨l, hdrive⟩ := exists_drive_of_resume rfl
    have hrunning : d.machine.status = .running := by
      rw [atBreakpoint, standsAt, Bool.and_eq_true_iff, decide_eq_true_eq] at hstands
      exact hstands.1
    exact ⟨l, hdrive.moves hdone hrunning hpaused, hdrive.executes⟩

/--
In a session with `++++`, the first stop is forgotten, but by the next run its breakpoint has been
disabled.  The second stop is forgotten as well, and the run after that reports it again.
-/
theorem canceled_run_only_forgets_stop_twice :
    let first : Debugger := { machine := start [0x2B, 0x2B, 0x2B, 0x2B] {} {} {} }
    let calls : List Call :=
      [.own (.edit (.set 1)), .own (.edit (.set 2)), .own (.resume false 0 9), .extra 0 9,
        .own (.edit (.disable 1)), .own (.resume false 0 9), .extra 5 0]
    (Harmless first calls ∧ forgotten first calls = true ∧ atBreakpoint first calls = true) ∧
      ownAnswers calls (padded first calls).2 = (plain first calls).2 ∧
      (padded first calls).1.machine = (plain first calls).1.machine ∧
      (padded first calls).1.resume false 0 9 = ((plain first calls).1,
        .stopped ⟨.breakpoint, (plain first calls).1.machine.snapshot⟩) := by
  obtain ⟨hanswers, -, hstates, hagain⟩ :=
    canceled_run_only_forgets_stop [0x2B, 0x2B, 0x2B, 0x2B] {} {} {}
      [.own (.edit (.set 1)), .own (.edit (.set 2)), .own (.resume false 0 9), .extra 0 9,
        .own (.edit (.disable 1)), .own (.resume false 0 9), .extra 5 0] (by decide +kernel)
  obtain ⟨hmachine, -, -⟩ := hstates 7
  obtain ⟨hstop, -⟩ := hagain (by decide +kernel) (by decide +kernel) 0 8
  exact ⟨by decide +kernel, hanswers, hmachine, hstop⟩

/--
In a session with `++`, a run stops at the second instruction, and the next one halts.  If a run
that is called off comes between the two, the second stops where the first did.
-/
theorem canceled_run_repeats_stop :
    let first : Debugger := { machine := start [0x2B, 0x2B] {} {} {} }
    let calls : List Call :=
      [.own (.edit (.set 1)), .own (.resume false 0 9), .extra 0 9, .own (.resume false 0 9)]
    ownAnswers calls (padded first calls).2 ≠ (plain first calls).2 ∧
      (padded first calls).1.machine ≠ (plain first calls).1.machine := by
  intro first calls
  constructor
  · intro hanswers
    have hstops := congrArg (fun answers => (stops answers).length) hanswers
    exact absurd hstops (by decide +kernel)
  · intro hmachine
    have hsteps := congrArg Machine.steps hmachine
    exact absurd hsteps (by decide +kernel)

end TimeTape.Debugger
