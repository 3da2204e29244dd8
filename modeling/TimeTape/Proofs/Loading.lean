/-
The program and its run share the input.

A program that no file holds is the first line of the input, and what comes behind that line is left
for the run.  Nothing is lost between the two, and nothing is read twice: `load` gives what is left
together with the program, and the run starts from that.  A file with nothing but line breaks in it
counts for none, so it is the text without its line breaks that decides who gets the first line.
-/
import TimeTape.Command
import TimeTape.Proofs.Breakpoints
import TimeTape.Proofs.Debugging
import TimeTape.Proofs.Exchange

namespace TimeTape

open Machine

/-! ### The program -/

theorem Text.lineFeed_not_mem_joinLines (text : Bytes) : lineFeed ∉ joinLines text := by
  simp [joinLines, isLineBreak]

theorem Text.carriageReturn_not_mem_joinLines (text : Bytes) :
    carriageReturn ∉ joinLines text := by
  simp [joinLines, isLineBreak]

namespace ProgramText

variable {μ : Type → Type} [Monad μ] {files : Files μ} {path : String} {file input : Bytes}

/-- The file at a path can be read and holds a text.  No file is as good as an empty one. -/
def Holds (files : Files μ) (path : String) (text : Bytes) : Prop :=
  if path = "" then text = [] else files.read path = pure (.ok text)

/-- The first line of an input. -/
def firstLine (input : Bytes) : Bytes :=
  (Text.lines input).head?.getD []

/-- The program that a file and an input hold between them, or nothing. -/
def codeOf (file input : Bytes) : Bytes :=
  if Text.joinLines file ≠ [] then Text.joinLines file else Text.joinLines (firstLine input)

/-- The number of lines of the input that the program takes. -/
def linesTaken (file : Bytes) : Nat :=
  if Text.joinLines file ≠ [] then 0 else 1

theorem codeOf_ne_nil_iff :
    codeOf file input ≠ [] ↔
      Text.joinLines file ≠ [] ∨ Text.joinLines (firstLine input) ≠ [] := by
  rw [codeOf]
  by_cases hfile : Text.joinLines file = []
  · simp [hfile]
  · simp [hfile]

theorem lineFeed_not_mem_codeOf (file input : Bytes) : Text.lineFeed ∉ codeOf file input := by
  rw [codeOf]
  split <;> exact Text.lineFeed_not_mem_joinLines _

theorem carriageReturn_not_mem_codeOf (file input : Bytes) :
    Text.carriageReturn ∉ codeOf file input := by
  rw [codeOf]
  split <;> exact Text.carriageReturn_not_mem_joinLines _

variable [LawfulMonad μ]

theorem ofFile_of_holds (h : Holds files path file) :
    ofFile files path = pure (.ok (Text.joinLines file)) := by
  unfold Holds at h
  unfold ofFile
  by_cases hpath : path = ""
  · rw [if_pos hpath] at h
    rw [if_pos hpath, h]
    rfl
  · rw [if_neg hpath] at h
    rw [if_neg hpath, h, pure_bind]

theorem ofLine_ok (line : Bytes) :
    ofLine (.ok line)
      = if Text.joinLines line = [] then .error .empty else .ok (Text.joinLines line) := by
  rw [ofLine]
  cases Text.joinLines line <;> rfl

/-- What loading comes to, and the lines that are left of the input. -/
theorem exists_load (h : Holds files path file) (input : Bytes) (interactive : Bool) :
    ∃ shown text, load files path { text := input } interactive = pure
        { code := if codeOf file input = [] then .error .empty else .ok (codeOf file input)
          shown
          rest := { text } } ∧
      Text.lines text = (Text.lines input).drop (linesTaken file) := by
  rw [load, ofFile_of_holds h, pure_bind]
  cases hfile : Text.joinLines file with
  | cons b code =>
      refine ⟨"", input, ?_, ?_⟩
      · simp [codeOf, hfile]
      · simp [linesTaken, hfile]
  | nil =>
      obtain ⟨text, hread, hlines⟩ := Source.exists_readLine (s := { text := input }) rfl
      refine ⟨if interactive then prompt else "", text, ?_, ?_⟩
      · simp [codeOf, hfile, hread, ofLine_ok, firstLine]
      · simp [linesTaken, hfile, hlines]

end ProgramText

/-! ### The run -/

namespace Report

open Debugger

theorem exists_executes_watch (canceled : Bool) (limit : UInt64) (fuel rounds : Nat)
    (d : Debugger) : ∃ k, Executes d.machine k (watch canceled limit fuel rounds d).1.machine := by
  induction rounds generalizing d with
  | zero => exact ⟨0, Executes.none _⟩
  | succ rounds ih =>
      obtain ⟨k, m, stepping, paused, hexec, hresume⟩ := exists_resume_eq canceled limit fuel d
      rcases hback : d.resume canceled limit fuel with ⟨d', stop | ending⟩
      · obtain ⟨l, hrest⟩ := ih d'
        rw [watch_of_stop hback]
        rw [hback] at hresume
        subst hresume
        exact ⟨k + l, hexec.trans hrest⟩
      · rw [watch_of_end hback]
        rw [hback] at hresume
        subst hresume
        exact ⟨k, hexec⟩

/-- The machine of a report has executed instructions, and then has had the report written to it. -/
theorem exists_executes_run (canceled : Bool) (fuel : Nat) (config : Config) (code : Bytes)
    (source : Source) (sink : Sink) :
    ∃ n m, Executes (start code config.options source sink) n m ∧
      (run canceled fuel config code source sink).machine
        = { m with sink := (run canceled fuel config code source sink).machine.sink } := by
  rw [run]
  by_cases hnone : config.breakpoints = []
  · obtain ⟨n, hexec⟩ := exists_executes_runUnless canceled config.maxSteps fuel
      (start code config.options source sink)
    rw [runAt_of_none canceled code source sink hnone]
    exact ⟨n, _, hexec, rfl⟩
  · cases hset : setAll { machine := start code config.options source sink } config.breakpoints with
    | error e =>
        rw [runAt_of_refusal canceled code source sink hnone hset]
        exact ⟨0, _, Executes.none _, rfl⟩
    | ok d =>
        obtain ⟨n, hexec⟩ := exists_executes_watch canceled config.maxSteps fuel fuel d
        rw [machine_of_setAll hset] at hexec
        rw [runAt_of_watch canceled code source sink hnone hset]
        exact ⟨n, _, hexec, rfl⟩

end Report

namespace Command

open ProgramText

/--
**Program and run share the input without loss.**  Let the file of a program, if one is named, be
readable, and let the input not fail.

Then there is a program if and only if something is left of the file or else of the first line of
the input when the line breaks are removed.  That is the program; it is not empty and has no line
breaks in it.  If there is none, the command says so and runs nothing.  In a run of the program on
what is left of the input, the `.` that are executed in reverse get the lines of the input one after
the other, from the first if the program came from the file and from the second if not, and what
they leave are the lines after those.  Such a run, and a report on it, is what the command comes to.
-/
theorem input_is_shared_without_loss {μ : Type → Type} [Monad μ] [LawfulMonad μ]
    (files : Files μ) (config : Config) (file input : Bytes) (interactive : Bool)
    (hfile : Holds files config.source file) :
    ∃ loaded, load files config.source { text := input } interactive = pure loaded ∧
      ((∃ code, loaded.code = .ok code) ↔
        Text.joinLines file ≠ [] ∨ Text.joinLines (firstLine input) ≠ []) ∧
      (∀ e, loaded.code = .error e → e = .empty ∧ ∀ fuel,
        execute files fuel config { text := input } interactive
          = pure (.refused (.program .empty loaded.shown))) ∧
      ∀ code, loaded.code = .ok code →
        (code = codeOf file input ∧ code ≠ [] ∧ Text.lineFeed ∉ code ∧
          Text.carriageReturn ∉ code) ∧
        (∀ (options : Options) (sink : Sink) (n : Nat),
          let first := start code options loaded.rest sink
          let reads := (history n first).filter reading
          (∀ (k : Nat) (m : Machine), reads[k]? = some m →
            let line := (Text.lines input)[linesTaken file + k]?.getD []
            m.source.readLine.2 = .ok line ∧ ∀ v, m.step.cell = v ↔ Text.Denotes line v) ∧
          (stepMany n first).source.text
            = ((Text.lines input).drop (linesTaken file + reads.length)).flatten) ∧
        ∀ fuel, ∃ report n m,
          execute files fuel config { text := input } interactive = pure (.ran report) ∧
          Executes (start code config.options loaded.rest
            { written := [Bytes.ofString loaded.shown] }) n m ∧
          report.machine = { m with sink := report.machine.sink } := by
  obtain ⟨shown, text, hload, hlines⟩ := exists_load hfile input interactive
  refine ⟨_, hload, ?_, ?_, ?_⟩
  · rw [← codeOf_ne_nil_iff]
    by_cases hcode : codeOf file input = []
    · simp [hcode]
    · simp [hcode]
  · intro e he
    by_cases hcode : codeOf file input = []
    · rw [if_pos hcode] at he
      refine ⟨(Except.error.inj he).symm, ?_⟩
      intro fuel
      rw [execute, hload, pure_bind, if_pos hcode]
    · rw [if_neg hcode] at he
      cases he
  · intro code hok
    by_cases hcode : codeOf file input = []
    · rw [if_pos hcode] at hok
      cases hok
    rw [if_neg hcode] at hok
    obtain rfl := Except.ok.inj hok
    refine ⟨⟨rfl, hcode, lineFeed_not_mem_codeOf file input,
      carriageReturn_not_mem_codeOf file input⟩, ?_, ?_⟩
    · intro options sink n first reads
      constructor
      · intro k m hm line
        have hline : line = (Text.lines text)[k]?.getD [] := by
          rw [hlines, List.getElem?_drop]
        obtain ⟨hread, hcell⟩ := line_of_reading rfl hm
        rw [hline]
        refine ⟨hread, ?_⟩
        intro v
        rw [hcell, Text.denotes_iff]
        exact eq_comm
      · have hconsumed : Consumed text (history n first) (stepMany n first) :=
          consumed_stepMany (codeOf file input) options { text } sink rfl n
        rw [← Text.flatten_lines (stepMany n first).source.text, hconsumed.lines, hlines,
          List.drop_drop]
    · intro fuel
      obtain ⟨n, m, hexec, hmachine⟩ := Report.exists_executes_run false fuel config
        (codeOf file input) { text } { written := [Bytes.ofString shown] }
      refine ⟨_, n, m, ?_, hexec, hmachine⟩
      simp only [execute, hload, pure_bind, if_neg hcode, Report.runAt_memory]

/--
A file with only a line break in it, and an input of three lines: `+JR..R` with a carriage return in
the middle, `é`, ended by a carriage return and a line feed, and `B`, not ended at all.  The first
line is the program, and the run gets the other two.
-/
theorem input_is_shared_without_loss_after_blank_file :
    let files : Files Id :=
      { workingDirectory := "/", isPresent := fun _ => true, read := fun _ => .ok [0x0D, 0x0A] }
    let input : Bytes :=
      [0x2B, 0x4A, 0x52, 0x2E, 0x0D, 0x2E, 0x52, 0x0A, 0xC3, 0xA9, 0x0D, 0x0A, 0x42]
    Holds files "blank" [0x0D, 0x0A] ∧
    ∃ loaded, load files "blank" { text := input } false = pure loaded ∧
      loaded.code = .ok [0x2B, 0x4A, 0x52, 0x2E, 0x2E, 0x52] ∧
      let first := start [0x2B, 0x4A, 0x52, 0x2E, 0x2E, 0x52] {} loaded.rest {}
      let reads := (history 10 first).filter reading
      (∃ m, reads[0]? = some m ∧ m.source.readLine.2 = .ok [0xC3, 0xA9, 0x0D, 0x0A]) ∧
      ∃ m, reads[1]? = some m ∧ m.source.readLine.2 = .ok [0x42] := by
  intro files input
  have hfile : Holds files "blank" [0x0D, 0x0A] := by
    rw [Holds, if_neg (by decide)]
    rfl
  obtain ⟨loaded, hload, hsome, -, hok⟩ := input_is_shared_without_loss files
    { source := "blank" } [0x0D, 0x0A] input false hfile
  obtain ⟨code, hcode⟩ := hsome.mpr (Or.inr (by decide +kernel))
  obtain ⟨⟨hcodeOf, -⟩, hlines, -⟩ := hok code hcode
  have hprogram : code = [0x2B, 0x4A, 0x52, 0x2E, 0x2E, 0x52] := by
    rw [hcodeOf]
    decide +kernel
  rw [hprogram] at hcode hlines
  obtain ⟨hreads, -⟩ := hlines {} {} 10
  have hloaded : loaded = load files "blank" { text := input } false := hload.symm
  refine ⟨hfile, loaded, hload, hcode, ?_⟩
  intro first reads
  have hlength : reads.length = 2 := by
    simp only [reads, first, hloaded]
    decide +kernel
  constructor
  · refine ⟨reads[0], List.getElem?_eq_getElem _, ?_⟩
    exact (hreads 0 _ (List.getElem?_eq_getElem _)).1
  · refine ⟨reads[1], List.getElem?_eq_getElem _, ?_⟩
    exact (hreads 1 _ (List.getElem?_eq_getElem _)).1

end Command

end TimeTape
