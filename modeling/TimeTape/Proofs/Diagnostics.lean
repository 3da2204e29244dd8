/-
The remarks on a document are sound for the engine.

An editor shows a warning at every bracket that has no partner in the program as written, and one
remark about the mirrored program if the program can turn around.  Neither looks at a run.  They
foretell every jump that fails all the same: a loose bracket that stops a machine is loose in the
image of the direction of travel, and a machine travels in reverse only after it has executed a
turn, which mirroring leaves where it is.

A document without remarks may still move below its first cell, but for that it has to turn around.
Only this last point needs the bounds on the program and the tape that the failures are classified
under.
-/
import TimeTape.Proofs.Failures
import TimeTape.Proofs.Layout
import TimeTape.Document.Advice

namespace TimeTape

/-! ### Only a turn leads into reverse -/

theorem reverse_mem_of_mirror {code : Bytes} (h : Instruction.reverse.glyph ∈ mirror code) :
    Instruction.reverse.glyph ∈ code := by
  obtain ⟨b, hb, hglyph⟩ := List.mem_map.mp h
  unfold mirrorGlyph at hglyph
  split at hglyph
  · exact absurd hglyph (by decide)
  · split at hglyph
    · exact absurd hglyph (by decide)
    · exact hglyph ▸ hb

namespace Machine

variable {code : Bytes} {m : Machine}

theorem moveOn_direction (m : Machine) : m.moveOn.direction = m.direction := by
  obtain ⟨status, hmove⟩ := exists_moveOn m
  rw [hmove]

/-- A turn that is executed stands in the program, whichever way the program is read. -/
theorem Inside.reverse_mem (h : Inside code m)
    (hglyph : m.dispatched = Instruction.reverse.glyph) : Instruction.reverse.glyph ∈ code := by
  have hbyte := Program.getElem?_text (d := m.direction) h.poised.pointer.nonneg
    h.poised.pointer.lt
  rw [← h.program, ← image, ← dispatched_eq, hglyph] at hbyte
  have hmem := List.mem_of_getElem? hbyte
  cases hd : m.direction with
  | forward =>
      rw [hd] at hmem
      exact hmem
  | reverse =>
      rw [hd] at hmem
      exact reverse_mem_of_mirror hmem

/-- A step changes the direction only by executing a turn. -/
theorem Inside.direction_step (h : Inside code m) (hrunning : m.status = .running) :
    m.step.direction = m.direction ∨ m.dispatched = Instruction.reverse.glyph := by
  rw [step_of_running hrunning]
  cases hexec : m.poised.execute m.dispatched with
  | mk m' fault? =>
      cases fault? with
      | some fault =>
          have hspared := (upset_of_execute h.poised.cell hexec).2
          exact Or.inl (hspared.direction.trans m.poised_direction)
      | none =>
          show m'.moveOn.direction = m.direction ∨ _
          rw [moveOn_direction, ← m.poised_direction]
          cases course_of_execute h.poised.cell hexec with
          | turn glyph ip direction schedule => exact Or.inr glyph
          | stay ip direction schedule
          | erase _ ip direction schedule
          | leap _ ip direction schedule
          | wait _ ip direction schedule
          | persist _ ip direction schedule
          | follow _ _ _ ip direction schedule => exact Or.inl direction

section Start

variable (code : Bytes) (options : Options) (source : Source) (sink : Sink)

/-- A machine travels in reverse only in a program that holds a turn. -/
theorem reverse_mem_of_direction (n : Nat)
    (h : (stepMany n (start code options source sink)).direction = .reverse) :
    Instruction.reverse.glyph ∈ code := by
  induction n with
  | zero => simp [stepMany, start] at h
  | succ n ih =>
      rw [stepMany_succ] at h
      by_cases hrunning : (stepMany n (start code options source sink)).status = .running
      · have hin := (reached code options source sink n).running hrunning
        -- The machine travelled in reverse before, or this step has executed a turn.
        rcases hin.direction_step hrunning with hsame | hturn
        · exact ih (hsame ▸ h)
        · exact hin.reverse_mem hturn
      · rw [step_of_stopped hrunning] at h
        exact ih h

variable {code options source sink}

/-- A run that ends at a loose bracket ends at one of the direction it travels in then. -/
theorem unmatched_of_failure {n : Nat} {f : Failure}
    (hfail : (stepMany n (start code options source sink)).status = .failed f) {g : UInt8}
    {i : Int} {d : Direction} (hfault : f.fault = .paradox (.unmatched g i d)) :
    i = f.ip ∧ d = (stepMany n (start code options source sink)).direction ∧
      i ∈ ((Program.ofBytes code).image d).brackets.unmatched := by
  obtain ⟨k, -, hrunning, hstep⟩ :=
    exists_failing_step (start_not_failed code options source sink) hfail
  rw [← hstep] at hfail ⊢
  exact ((reached code options source sink k).running hrunning).unmatched_of_step hrunning hfail
    hfault

/-- Without a turn, only a loose bracket can be a paradox. -/
theorem unmatched_of_paradox {n : Nat} {f : Failure}
    (hfail : (stepMany n (start code options source sink)).status = .failed f)
    (hcode : FitsWord (code.length + 255))
    (htape : FitsWord (stepMany n (start code options source sink)).tape.size)
    (hturn : Instruction.reverse.glyph ∉ code) {p : Paradox} (hfault : f.fault = .paradox p) :
    ∃ g i d, p = .unmatched g i d := by
  obtain ⟨k, -, hrunning, hstep⟩ :=
    exists_failing_step (start_not_failed code options source sink) hfail
  have hforward : (stepMany k (start code options source sink)).direction ≠ .reverse :=
    fun hd => hturn (reverse_mem_of_direction code options source sink k hd)
  rw [← hstep] at hfail htape
  have hin := (reached code options source sink k).running hrunning
  cases (hin.mishap_of_step hcode htape hrunning hfail).1 with
  | belowFirstCell fault glyph direction before after => exact absurd direction hforward
  | looseBracket b bracket fault glyph jumps unmatched =>
      rw [hfault, Fault.paradox.injEq] at fault
      exact ⟨_, _, _, fault⟩
  | unwritten reason fault glyph direction refused => simp [hfault] at fault
  | unread reason fault glyph direction failed => simp [hfault] at fault

end Start

end Machine

/-! ### What the editor is told -/

namespace Document

variable {text : Bytes} {i : Int}

/-- A warning at the place of the byte at index `i` of the program. -/
structure WarnsAt (d : Document) (i : Int) (x : Diagnostic) : Prop where
  severity : x.severity = .warning
  place : d.positions[i.toNat]? = some x.range.start

/-- The remark that brackets are loose in the mirrored program, with their number. -/
structure WarnsOfMirror (d : Document) (x : Diagnostic) : Prop where
  severity : x.severity = .information
  message :
    let loose := d.program.mirrored.brackets.unmatched.length
    let all := d.code.countP isBracket
    x.message = s!"{loose} of {all} brackets have no partner in the mirrored program: " ++
      "jumping through them is fatal in reverse mode"

theorem exists_warning
    (h : i ∈ ((Program.ofBytes (Text.joinLines text)).image .forward).brackets.unmatched) :
    ∃ x ∈ (ofText text).diagnostics, (ofText text).WarnsAt i x := by
  obtain ⟨hlo, hlt⟩ := Pairing.unmatched_inside h
  have hsize : i.toNat < (ofText text).positions.size := by
    rw [size_positions]
    omega
  refine ⟨(ofText text).looseBracket i.toNat, ?_, rfl, getElem?_positions hsize⟩
  refine List.mem_append_left _ (List.mem_map.mpr ⟨i, ?_, rfl⟩)
  rw [program_ofText]
  exact h

theorem exists_mirrorRemark
    (h : i ∈ ((Program.ofBytes (Text.joinLines text)).image .reverse).brackets.unmatched)
    (hturn : Instruction.reverse.glyph ∈ Text.joinLines text) :
    ∃ x ∈ (ofText text).diagnostics, (ofText text).WarnsOfMirror x := by
  rw [← program_ofText] at h
  rw [← code_ofText] at hturn
  cases hloose : (ofText text).program.mirrored.brackets.unmatched with
  | nil =>
      replace h : i ∈ (ofText text).program.mirrored.brackets.unmatched := h
      simp [hloose] at h
  | cons first more =>
      have hremark : ∃ x, (ofText text).mirrorRemark? = some x ∧ (ofText text).WarnsOfMirror x := by
        unfold mirrorRemark?
        simp only [hloose, List.contains_iff_mem.mpr hturn, if_true]
        refine ⟨_, rfl, rfl, ?_⟩
        rw [hloose, List.length_cons]
      obtain ⟨x, hx, hwarns⟩ := hremark
      refine ⟨x, List.mem_append_right _ ?_, hwarns⟩
      rw [hx]
      exact List.mem_singleton_self x

end Document

open Machine

section Runs

variable {text : Bytes} {options : Options} {source : Source} {sink : Sink} {n : Nat} {f : Failure}

/-- A loose bracket that stops a run has been remarked on, in the way of its direction. -/
theorem remarked_of_failure
    (hfail : (stepMany n (start (Text.joinLines text) options source sink)).status = .failed f)
    {g : UInt8} {i : Int} {d : Direction} (hfault : f.fault = .paradox (.unmatched g i d)) :
    (d = .forward →
      ∃ x ∈ (Document.ofText text).diagnostics, (Document.ofText text).WarnsAt f.ip x) ∧
    (d = .reverse →
      ∃ x ∈ (Document.ofText text).diagnostics, (Document.ofText text).WarnsOfMirror x) := by
  obtain ⟨hip, hdirection, hloose⟩ := unmatched_of_failure hfail hfault
  constructor
  · rintro rfl
    exact hip ▸ Document.exists_warning hloose
  · rintro rfl
    exact Document.exists_mirrorRemark hloose
      (reverse_mem_of_direction _ options source sink n hdirection.symm)

theorem not_unmatched_of_silent (hnone : (Document.ofText text).diagnostics = [])
    (hfail : (stepMany n (start (Text.joinLines text) options source sink)).status = .failed f)
    (g : UInt8) (i : Int) (d : Direction) : f.fault ≠ .paradox (.unmatched g i d) := by
  intro hfault
  obtain ⟨hforward, hreverse⟩ := remarked_of_failure hfail hfault
  rw [hnone] at hforward hreverse
  cases d with
  | forward => simpa using hforward rfl
  | reverse => simpa using hreverse rfl

end Runs

/--
**The remarks on a document foretell every failing jump.**  Say that a run of the program of a
text has failed.  If a loose bracket stopped it, the failure records its index and the direction of
travel: running forward, there is a warning at the place of that index, and running in reverse, the
remark on the mirrored program.  So if there are no remarks, no loose bracket stopped it, and if
there is no turn in the program either, no paradox did.
-/
theorem diagnostics_foretell_failures (text : Bytes) (options : Options) (source : Source)
    (sink : Sink) (n : Nat) (f : Failure)
    (hfail : (stepMany n (start (Text.joinLines text) options source sink)).status = .failed f) :
    (∀ g i d, f.fault = .paradox (.unmatched g i d) →
      i = f.ip ∧
      d = (stepMany n (start (Text.joinLines text) options source sink)).direction ∧
      (d = .forward →
        ∃ x ∈ (Document.ofText text).diagnostics, (Document.ofText text).WarnsAt f.ip x) ∧
      (d = .reverse →
        ∃ x ∈ (Document.ofText text).diagnostics, (Document.ofText text).WarnsOfMirror x)) ∧
    ((Document.ofText text).diagnostics = [] →
      (∀ g i d, f.fault ≠ .paradox (.unmatched g i d)) ∧
      (Instruction.reverse.glyph ∉ Text.joinLines text →
        FitsWord ((Text.joinLines text).length + 255) →
        FitsWord (stepMany n (start (Text.joinLines text) options source sink)).tape.size →
        ∀ p, f.fault ≠ .paradox p)) := by
  refine ⟨fun g i d hfault => ?_, fun hnone => ⟨not_unmatched_of_silent hnone hfail, ?_⟩⟩
  · obtain ⟨hip, hdirection, -⟩ := unmatched_of_failure hfail hfault
    exact ⟨hip, hdirection, remarked_of_failure hfail hfault⟩
  · intro hturn hcode htape p hfault
    obtain ⟨g, i, d, rfl⟩ := unmatched_of_paradox hfail hcode htape hturn hfault
    exact not_unmatched_of_silent hnone hfail g i d hfault

/--
An opener alone on the second line, behind a character of two bytes, stops the machine at index 2,
and the warning is at the start of that line.  Going back through `{}R`, the machine stops at a
bracket whose partner is lost in the mirrored program.  On `.` there are no remarks, and a sink that
takes nothing stops it without a paradox.
-/
theorem diagnostics_foretell_failures_at_brackets :
    (∃ x ∈ (Document.ofText [0xC3, 0xA9, 0x0A, 0x7B]).diagnostics,
      x.severity = .warning ∧ x.range.start = ⟨1, 0⟩) ∧
    (∃ x ∈ (Document.ofText [0x7B, 0x7D, 0x52]).diagnostics,
      (Document.ofText [0x7B, 0x7D, 0x52]).WarnsOfMirror x) ∧
    (Document.ofText [0x2E]).diagnostics = [] ∧
    ∀ p, Fault.unwritten "full" ≠ .paradox p := by
  have hnone : (Document.ofText [0x2E]).diagnostics = [] := by decide +kernel
  refine ⟨?_, ?_, hnone, ?_⟩
  · have hforetold := (diagnostics_foretell_failures [0xC3, 0xA9, 0x0A, 0x7B] {} {} {} 3
      { fault := .paradox (.unmatched 0x7B 2 .forward), ip := 2, mp := 0 } (by decide)).1 _ _ _ rfl
    obtain ⟨x, hx, hwarns⟩ := hforetold.2.2.1 rfl
    have hplace : (Document.ofText [0xC3, 0xA9, 0x0A, 0x7B]).positions[2]? = some ⟨1, 0⟩ := by
      decide
    exact ⟨x, hx, hwarns.severity, Option.some.inj (hwarns.place.symm.trans hplace)⟩
  · have hforetold := (diagnostics_foretell_failures [0x7B, 0x7D, 0x52] {} {} {} 3
      { fault := .paradox (.unmatched 0x7B 1 .reverse), ip := 1, mp := 0 } (by decide)).1 _ _ _ rfl
    exact hforetold.2.2.2 rfl
  · have hsilent := (diagnostics_foretell_failures [0x2E] {} {} { room := some 0, refusal := "full" }
      1 { fault := .unwritten "full", ip := 0, mp := 0 } (by decide)).2 hnone
    exact hsilent.2 (by decide) (by decide) (by decide)

end TimeTape
