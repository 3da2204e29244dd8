/-
A console shows what the command comes to.

At a console a machine is given its input line by line, and what it writes is taken away after every
step.  So it is never the machine that runs in memory, which has the whole input and all its output:
the rest of that is outside.  `Transcript` is what is outside, and `Joined` says that the two make
up the machine in memory.  What is outside is a redaction, and a line is brought in before it is
needed, so no step can tell the difference.

From the steps this carries over to runs, to runs under breakpoints and to the whole command: the
same appears at a console, bit by bit, as comes out in memory in the end.
-/
import TimeTape.Console
import TimeTape.Proofs.Breakpoints
import TimeTape.Proofs.Lines
import TimeTape.Proofs.Records

namespace TimeTape

/-- What is outside of a program at a console. -/
structure Transcript where
  /-- The input that has not been read. -/
  input : Bytes
  output : Bytes := []
  log : List String := []
  complaints : String := ""

namespace Console

open Machine

/-! ### Streams that are kept -/

/-- The first line of an input, or all of it if there is no line feed, and what comes behind. -/
def firstLine (input : Bytes) : Bytes × Bytes :=
  (Source.cutLine input).getD (input, [])

theorem firstLine_append (input : Bytes) : (firstLine input).1 ++ (firstLine input).2 = input := by
  cases hcut : Source.cutLine input with
  | none => simp [firstLine, hcut]
  | some cut =>
      obtain ⟨body, -, hline, hinput⟩ := Source.exists_of_cutLine hcut
      rw [firstLine, hcut]
      simp [hline, hinput]

theorem lineFeed_mem_firstLine (input : Bytes) :
    (firstLine input).2 = [] ∨ Text.lineFeed ∈ (firstLine input).1 := by
  cases hcut : Source.cutLine input with
  | none => simp [firstLine, hcut]
  | some cut =>
      obtain ⟨body, -, hline, -⟩ := Source.exists_of_cutLine hcut
      simp [firstLine, hcut, hline]

theorem readLine_eq_firstLine (input : Bytes) :
    Source.readLine { text := input }
      = ({ text := (firstLine input).2 }, .ok (firstLine input).1) := by
  cases hcut : Source.cutLine input <;> simp [Source.readLine, firstLine, hcut]

/-- Streams whose input is given and whose output is kept. -/
def scripted : Streams (StateM Transcript) where
  readLine := modifyGet fun t =>
    ((firstLine t.input).1, { t with input := (firstLine t.input).2 })
  write text := modify fun t => { t with output := t.output ++ text }
  log line := modify fun t => { t with log := t.log ++ [line] }
  complain text := modify fun t => { t with complaints := t.complaints ++ text }

/-- With a transcript, a program gives an answer and leaves another transcript. -/
def Gives {α : Type} (program : StateM Transcript α) (t : Transcript) (answer : α)
    (t' : Transcript) : Prop :=
  program.run t = (answer, t')

section Gives

variable {α β : Type} {t t' t'' : Transcript} {a : α} {b : β}

theorem Gives.pure (a : α) (t : Transcript) : Gives (pure a) t a t := rfl

theorem Gives.bind {program : StateM Transcript α} {next : α → StateM Transcript β}
    (h : Gives program t a t') (hnext : Gives (next a) t' b t'') :
    Gives (program >>= next) t b t'' := by
  rw [Gives, StateT.run_bind, h]
  exact hnext

theorem gives_log (lines : List String) (t : Transcript) :
    Gives (lines.forM scripted.log) t () { t with log := t.log ++ lines } := by
  induction lines generalizing t with
  | nil => rw [List.append_nil]; rfl
  | cons line rest ih =>
      have hrest := ih { t with log := t.log ++ [line] }
      rw [List.append_assoc, List.singleton_append] at hrest
      exact Gives.bind (a := ()) rfl hrest

theorem gives_readLine (t : Transcript) :
    Gives scripted.readLine t (firstLine t.input).1 { t with input := (firstLine t.input).2 } := rfl

end Gives

/-! ### A machine and what is outside -/

/--
The redaction that adds what is outside: input behind that of the machine, output and notes before
those of the machine.
-/
def outside (input : Bytes) (written : List Bytes) (notes : List Event) : Redaction where
  notes ns := ns ++ notes
  source s := { s with text := s.text ++ input }
  sink s := { s with written := s.written ++ written }
  noted v e ns := by cases v <;> rfl
  written s chunk := by
    rcases hroom : s.room with _ | _ | n <;> simp [Sink.write, hroom, Except.map]

theorem keepsCounts_outside (input : Bytes) (written : List Bytes) (notes : List Event) :
    (outside input written notes).KeepsCounts :=
  ⟨fun _ => rfl, fun _ _ _ => rfl, fun _ => rfl⟩

/-- Input from outside does not matter to a line if there is none, or the line is there already. -/
theorem keepsLine_outside {input : Bytes} {s : Source}
    (h : input = [] ∨ (Source.cutLine s.text).isSome = true) (written : List Bytes)
    (notes : List Event) : (outside input written notes).KeepsLine s := by
  rcases h with rfl | hsome
  · simp [Redaction.KeepsLine, outside]
  · obtain ⟨⟨line, rest⟩, hcut⟩ := Option.isSome_iff_exists.mp hsome
    simp [Redaction.KeepsLine, outside, Source.readLine, hcut, Source.cutLine_append hcut]

/-- A machine at a console and what is outside of it make up a machine in memory. -/
structure Joined (t : Transcript) (m whole : Machine) : Prop where
  machine : whole = (delivered m).redact (outside t.input whole.sink.written whole.notes)
  output : whole.sink.contents = t.output ++ m.sink.contents
  log : whole.notes.reverse.map Command.logLine = t.log ++ m.notes.reverse.map Command.logLine

variable {t : Transcript} {m whole : Machine} {limit : UInt64}

theorem joined_redact {written : List Bytes} {notes : List Event}
    (houtput : written.reverse.flatten = t.output)
    (hlog : notes.reverse.map Command.logLine = t.log) (m : Machine) :
    Joined t m (m.redact (outside t.input written notes)) := by
  refine ⟨rfl, ?_, ?_⟩
  · simp [redact, outside, Sink.contents, houtput]
  · simp [redact, outside, hlog]

namespace Joined

theorem status (h : Joined t m whole) : whole.status = m.status :=
  (congrArg Machine.status h.machine :)

theorem ip (h : Joined t m whole) : whole.ip = m.ip :=
  (congrArg Machine.ip h.machine :)

theorem isOver (h : Joined t m whole) (limit : UInt64) : whole.isOver limit = m.isOver limit :=
  (congrArg (Machine.isOver limit) h.machine :)

theorem ending (h : Joined t m whole) : whole.ending = m.ending :=
  (congrArg Machine.ending h.machine :)

theorem snapshot (h : Joined t m whole) : whole.snapshot = m.snapshot :=
  (congrArg Machine.snapshot h.machine :)

theorem deliver (h : Joined t m whole) :
    ∃ t', Gives (deliver scripted m) t (delivered m) t' ∧ Joined t' (delivered m) whole ∧
      t'.complaints = t.complaints := by
  refine ⟨_, (gives_log _ t).bind (Gives.bind (a := ()) rfl (Gives.pure _ _)), ?_, rfl⟩
  refine ⟨h.machine, ?_, ?_⟩
  · rw [h.output]
    exact (List.append_nil _).symm
  · rw [h.log]
    exact (List.append_nil _).symm

/-- A line that is brought in is taken from outside.  Then the machine has it, or there is none. -/
theorem feed (h : Joined t m whole) :
    ∃ source t', Gives (feed scripted m) t { m with source } t' ∧
      Joined t' { m with source } whole ∧ t'.complaints = t.complaints ∧
      (t'.input = [] ∨ awaitsLine { m with source } = false) := by
  rw [Console.feed]
  by_cases hawaits : m.awaitsLine = true
  · rw [if_pos hawaits]
    refine ⟨_, _, (gives_readLine t).bind (Gives.pure _ _), ⟨?_, h.output, h.log⟩, rfl,
      (lineFeed_mem_firstLine t.input).imp_right ?_⟩
    · have hinput := firstLine_append t.input
      refine h.machine.trans ?_
      simp [delivered, redact, outside, hinput]
    · intro hmem
      by_contra hnot
      have hcut : Source.cutLine (m.source.text ++ (firstLine t.input).1) = none := by
        simp_all [awaitsLine]
      exact Source.not_mem_of_cutLine hcut (List.mem_append_right _ hmem)
  · rw [if_neg hawaits]
    exact ⟨m.source, t, Gives.pure _ _, h, rfl, Or.inr (by simpa using hawaits)⟩

/-- A machine that has the line that it is going to read takes the step of the machine in memory. -/
theorem step (h : Joined t m whole) (hdelivered : delivered m = m)
    (hready : t.input = [] ∨ m.awaitsLine = false) : Joined t m.step whole.step := by
  have hline : m.status = .running → m.dispatched = Instruction.io.glyph →
      m.direction = .reverse →
      (outside t.input whole.sink.written whole.notes).KeepsLine m.source := by
    intro hrunning hglyph hreverse
    refine keepsLine_outside (hready.imp_right fun hnot => ?_) _ _
    rw [dispatched] at hglyph
    simpa [awaitsLine, hrunning, hreverse, hglyph] using hnot
  have hmachine := h.machine
  rw [hdelivered] at hmachine
  have hsink : m.sink.written = [] := (congrArg (·.sink.written) hdelivered).symm
  have hnotes : m.notes = [] := (congrArg (·.notes) hdelivered).symm
  have houtput : whole.sink.written.reverse.flatten = t.output := by
    have hcontents := h.output
    rwa [Sink.contents, Sink.contents, hsink, List.reverse_nil, List.flatten_nil,
      List.append_nil] at hcontents
  have hlog : whole.notes.reverse.map Command.logLine = t.log := by
    have hlines := h.log
    rwa [hnotes, List.reverse_nil, List.map_nil, List.append_nil] at hlines
  have hstep : whole.step = m.step.redact (outside t.input whole.sink.written whole.notes) :=
    (congrArg Machine.step hmachine).trans (step_redact (keepsCounts_outside _ _ _) hline)
  rw [hstep]
  exact joined_redact houtput hlog m.step

/-- **A step at a console is the step in memory.** -/
theorem exists_step (h : Joined t m whole) :
    ∃ m' t', Gives ((terminal scripted).step m) t m' t' ∧ Joined t' m' whole.step ∧
      t'.complaints = t.complaints := by
  obtain ⟨t₁, hdeliver, h₁, hc₁⟩ := h.deliver
  obtain ⟨source, t₂, hfeed, h₂, hc₂, hready⟩ := h₁.feed
  obtain ⟨t₃, hlast, h₃, hc₃⟩ := (h₂.step rfl hready).deliver
  exact ⟨_, t₃, hdeliver.bind (hfeed.bind hlast), h₃, by rw [hc₃, hc₂, hc₁]⟩

end Joined

/-! ### Runs -/

theorem Joined.exists_runBy (h : Joined t m whole) (limit : UInt64) (fuel : Nat) :
    ∃ m' t',
      Gives (m.runBy (terminal scripted).step limit fuel) t (m', (whole.run limit fuel).2) t' ∧
      Joined t' m' (whole.run limit fuel).1 ∧ t'.complaints = t.complaints := by
  induction fuel generalizing t m whole with
  | zero => exact ⟨m, t, Gives.pure _ _, h, rfl⟩
  | succ fuel ih =>
      obtain ⟨m₁, t₁, hstep, h₁, hc₁⟩ := h.exists_step
      rw [runBy_succ, run_succ]
      by_cases hover : whole.step.isOver limit = true
      · rw [if_pos hover]
        refine ⟨m₁, t₁, hstep.bind ?_, h₁, hc₁⟩
        rw [← h₁.isOver, if_pos hover, h₁.ending]
        exact Gives.pure _ _
      · obtain ⟨m', t', hrest, h', hc'⟩ := ih h₁
        rw [if_neg hover]
        refine ⟨m', t', hstep.bind ?_, h', hc'.trans hc₁⟩
        rw [← h₁.isOver, if_neg hover]
        exact hrest

/-- A debugger at a console and what is outside make up a debugger in memory. -/
structure Attached (t : Transcript) (d whole : Debugger) : Prop where
  debugger : whole = { d with machine := whole.machine }
  machine : Joined t d.machine whole.machine

variable {d watcher : Debugger}

namespace Attached

theorem pause? (h : Attached t d watcher) (resuming stepDue : Bool) :
    watcher.pause? resuming stepDue = (d.pause? resuming stepDue).map fun stop =>
      (stop.1, { stop.2 with machine := watcher.machine }) :=
  (congrArg (·.pause? resuming stepDue) h.debugger).trans
    (Debugger.pause?_congr h.machine.status h.machine.ip)

theorem exists_loopBy (h : Attached t d watcher) (limit : UInt64) (fuel : Nat)
    (resuming stepDue : Bool) :
    ∃ d' t', Gives (d.loopBy (terminal scripted).step limit fuel resuming stepDue) t
        (d', (watcher.loop limit fuel resuming stepDue).2) t' ∧
      Attached t' d' (watcher.loop limit fuel resuming stepDue).1 ∧
      t'.complaints = t.complaints := by
  induction fuel generalizing t d watcher resuming stepDue with
  | zero => exact ⟨d, t, Gives.pure _ _, h, rfl⟩
  | succ fuel ih =>
      have hpause := h.pause? resuming stepDue
      cases hstop : d.pause? resuming stepDue with
      | some stop =>
          obtain ⟨-, -, -, stepping, hd⟩ := Debugger.pause?_eq_some hstop
          rw [hstop] at hpause
          rw [Debugger.loopBy_of_stop _ hstop, Debugger.loop_of_stop hpause, hd]
          refine ⟨{ d with stepping, paused := true }, t, ?_, ⟨rfl, h.machine⟩, rfl⟩
          simp only [h.machine.snapshot]
          exact Gives.pure _ _
      | none =>
          rw [hstop] at hpause
          obtain ⟨m₁, t₁, hstep, h₁, hc₁⟩ := h.machine.exists_step
          have hsame := congrArg
            (fun w : Debugger => { w with machine := watcher.machine.step }) h.debugger
          have hnext : Attached t₁ { d with machine := m₁ }
              { watcher with machine := watcher.machine.step } := ⟨hsame, h₁⟩
          rw [Debugger.loopBy_of_step _ hstop, Debugger.loop_of_step hpause]
          by_cases hover : watcher.machine.step.isOver limit = true
          · rw [if_pos hover]
            refine ⟨{ d with machine := m₁ }, t₁, hstep.bind ?_, hnext, hc₁⟩
            rw [← h₁.isOver, if_pos hover, h₁.ending]
            exact Gives.pure _ _
          · obtain ⟨d', t', hrest, h', hc'⟩ := ih hnext false true
            rw [if_neg hover]
            refine ⟨d', t', hstep.bind ?_, h', hc'.trans hc₁⟩
            rw [← h₁.isOver, if_neg hover]
            exact hrest

theorem exists_resumeBy (h : Attached t d watcher) (limit : UInt64) (fuel : Nat) :
    ∃ d' t', Gives (d.resumeBy (terminal scripted).step false limit fuel) t
        (d', (watcher.resume false limit fuel).2) t' ∧
      Attached t' d' (watcher.resume false limit fuel).1 ∧ t'.complaints = t.complaints := by
  have hpaused : watcher.paused = d.paused := (congrArg Debugger.paused h.debugger :)
  have hstart : Attached t { d with paused := false } { watcher with paused := false } :=
    ⟨congrArg (fun w : Debugger => { w with paused := false }) h.debugger, h.machine⟩
  have hloop := hstart.exists_loopBy limit fuel d.paused false
  rw [← hpaused] at hloop
  rw [Debugger.resumeBy, ← hpaused]
  exact hloop

open Report in
/-- The stops on the way are reported at once, and none is left to be reported. -/
theorem exists_watchAt (h : Attached t d watcher) (limit : UInt64) (budget rounds : Nat)
    (kept : List Stop) :
    ∃ d' t', Gives (watchAt (terminal scripted) false limit budget rounds kept d) t
        (d', kept.reverse, (watch false limit budget rounds watcher).2.2) t' ∧
      Joined t' d'.machine (watch false limit budget rounds watcher).1.machine ∧
      t'.complaints = t.complaints ++
        String.join ((watch false limit budget rounds watcher).2.1.map Stop.report) := by
  induction rounds generalizing t d watcher with
  | zero => exact ⟨d, t, Gives.pure _ _, h.machine, by simp [watch, watchAt]⟩
  | succ rounds ih =>
      obtain ⟨d₁, t₁, hresume, h₁, hc₁⟩ := h.exists_resumeBy limit budget
      rw [watchAt]
      rcases hback : watcher.resume false limit budget with ⟨watcher₁, s | e⟩
      · rw [hback] at hresume h₁
        have hafter : Attached { t₁ with complaints := t₁.complaints ++ s.report } d₁ watcher₁ :=
          ⟨h₁.debugger, h₁.machine.machine, h₁.machine.output, h₁.machine.log⟩
        obtain ⟨d', t', hrest, h', hc'⟩ := ih hafter
        have hreport : Gives ((terminal scripted).report s kept) t₁ kept _ :=
          Gives.bind (a := ()) rfl (Gives.pure _ _)
        rw [watch_of_stop hback]
        refine ⟨d', t', hresume.bind (hreport.bind hrest), h', ?_⟩
        rw [hc', hc₁]
        simp [String.append_assoc]
      · rw [hback] at hresume h₁
        rw [watch_of_end hback]
        refine ⟨d₁, t₁, hresume.bind (Gives.pure _ _), h₁.machine, ?_⟩
        rw [hc₁]
        simp

end Attached

/-! ### Reports -/

/-- What has appeared at a console and what is left of an outcome make up another outcome. -/
structure Completes (t : Transcript) (left whole : Command.Outcome) : Prop where
  exitCode : left.exitCode = whole.exitCode
  output : t.output ++ left.output = whole.output
  log : t.log ++ left.log = whole.log
  complaints : t.complaints ++ left.complaints = whole.complaints
  served : left = .serve ↔ whole = .serve

/-- What a sink takes depends on its room, and not on what it has taken before. -/
theorem exists_offer (chunk : Bytes) (room : Option Nat) :
    ∃ taken room', ∀ s : Sink, s.room = room →
      (s.offer chunk).contents = s.contents ++ taken ∧ (s.offer chunk).room = room' := by
  rcases room with _ | _ | n
  · refine ⟨chunk, none, fun s hs => ?_⟩
    simp [Sink.offer, Sink.write, hs, Sink.contents]
  · refine ⟨[], some 0, fun s hs => ?_⟩
    simp [Sink.offer, Sink.write, hs]
  · refine ⟨chunk, some n, fun s hs => ?_⟩
    simp [Sink.offer, Sink.write, hs, Sink.contents]

theorem exists_offers (lines : List String) (room : Option Nat) :
    ∃ taken, ∀ s : Sink, s.room = room →
      (lines.foldl (fun s line => s.offer (Bytes.ofString line)) s).contents
        = s.contents ++ taken := by
  induction lines generalizing room with
  | nil => exact ⟨[], fun s _ => (List.append_nil _).symm⟩
  | cons line rest ih =>
      obtain ⟨first, room', hfirst⟩ := exists_offer (Bytes.ofString line) room
      obtain ⟨taken, hrest⟩ := ih room'
      refine ⟨first ++ taken, fun s hs => ?_⟩
      obtain ⟨hcontents, hroom⟩ := hfirst s hs
      rw [List.foldl_cons, hrest _ hroom, hcontents, List.append_assoc]

/-- What is left to report of a run at a console completes the report on the run in memory. -/
theorem Joined.completes (h : Joined t m whole) (config : Config) (result : RunResult) :
    Completes t (.ran (Report.conclude config m "" result))
      (.ran (Report.conclude config whole t.complaints result)) := by
  have hepilogue : Report.epilogue config whole = Report.epilogue config m :=
    (congrArg (Report.epilogue config) h.machine :)
  have hroom : whole.sink.room = m.sink.room := (congrArg (·.sink.room) h.machine :)
  obtain ⟨taken, htaken⟩ := exists_offers (Report.epilogue config m) m.sink.room
  refine ⟨rfl, ?_, h.log.symm, ?_, by simp⟩
  · simp only [Command.Outcome.output, Report.conclude, hepilogue, htaken _ rfl, htaken _ hroom,
      h.output, List.append_assoc]
  · simp [Command.Outcome.complaints, Report.conclude]

section Run

variable {config : Config} {code : Bytes} {source source' : Source} {sink sink' : Sink}

open Report in
theorem exists_runAt
    (h : Joined t (start code config.options source sink) (start code config.options source' sink'))
    (hquiet : t.complaints = "") (fuel : Nat) :
    ∃ report t', Gives (runAt (terminal scripted) false fuel config code source sink) t report t' ∧
      Completes t' (.ran report) (.ran (Report.run false fuel config code source' sink')) := by
  by_cases hnone : config.breakpoints = []
  · obtain ⟨m', t', hrun, h', hc'⟩ := h.exists_runBy config.maxSteps fuel
    have hcompletes := h'.completes config
    rw [hc', hquiet] at hcompletes
    rw [Report.run, runAt_of_none false code source' sink' hnone]
    simp only [runAt, hnone, List.isEmpty_nil, if_true]
    exact ⟨_, t', hrun.bind (Gives.pure _ _), hcompletes _⟩
  · have hcons : config.breakpoints.isEmpty = false := by simpa using hnone
    have hprogram : (start code config.options source' sink').program
        = (start code config.options source sink).program := (congrArg Machine.program h.machine :)
    have hsame := setAll_congr { machine := start code config.options source sink }
      config.breakpoints hprogram
    simp only [runAt, hcons, Bool.false_eq_true, if_false]
    cases hset : setAll { machine := start code config.options source sink } config.breakpoints with
    | error refusal =>
        rw [hset] at hsame
        have hcompletes := h.completes config (.badBreakpoint refusal)
        rw [hquiet] at hcompletes
        rw [Report.run, runAt_of_refusal false code source' sink' hnone hsame]
        exact ⟨_, t, Gives.pure _ _, hcompletes⟩
    | ok d =>
        rw [hset] at hsame
        have hmachine := machine_of_setAll hset
        have hattached :
            Attached t d { d with machine := start code config.options source' sink' } :=
          ⟨rfl, hmachine ▸ h⟩
        obtain ⟨d', t', hwatch, h', hc'⟩ :=
          hattached.exists_watchAt config.maxSteps fuel fuel []
        have hcompletes := h'.completes config
        rw [hc', hquiet, String.empty_append] at hcompletes
        rw [Report.run, runAt_of_watch false code source' sink' hnone hsame]
        exact ⟨_, t', hwatch.bind (Gives.pure _ _), hcompletes _⟩

end Run

/-! ### The command -/

theorem ofString_empty : Bytes.ofString "" = [] := by
  simp [Bytes.ofString]

/-- Files that are read in another monad. -/
def lifted {μ : Type → Type} [Monad μ] (files : Files Id) : Files μ where
  workingDirectory := pure files.workingDirectory.run
  isPresent path := pure (files.isPresent path).run
  read path := pure (files.read path).run

section Lifted

variable {μ : Type → Type} [Monad μ] [LawfulMonad μ] (files : Files Id)

theorem load_lifted (dir : String) (decode : Project.Decoder) :
    Project.load (lifted files : Files μ) dir decode
      = pure (Project.load files dir decode).run := by
  rw [Project.load, Project.load, Id.run_bind]
  refine (pure_bind _ _).trans ?_
  cases (files.read (Path.join dir Manifest.fileName)).run with
  | error e => rfl
  | ok text =>
      dsimp only
      cases decode text with
      | error e => rfl
      | ok manifest => exact pure_bind _ _

theorem loadFirst_lifted (decode : Project.Decoder) (dirs : List String) :
    Project.loadFirst (lifted files : Files μ) decode dirs
      = pure (Project.loadFirst files decode dirs).run := by
  induction dirs with
  | nil => rfl
  | cons dir more ih =>
      rw [Project.loadFirst, Project.loadFirst, Id.run_bind]
      refine (pure_bind _ _).trans ?_
      cases (files.isPresent (Path.join dir Manifest.fileName)).run with
      | true =>
          simp only [if_true, load_lifted, pure_bind]
          rfl
      | false => exact ih

theorem configure_lifted (a : Arguments) :
    Command.configure (lifted files : Files μ) a = pure (Command.configure files a).run := by
  have hfind : Project.find (lifted files : Files μ) "." = pure (Project.find files ".").run :=
    (pure_bind _ _).trans (loadFirst_lifted files Manifest.parse _)
  rw [Command.configure, Command.configure, hfind]
  cases a.noManifest with
  | true => simp only [if_true, pure_bind, Id.run_pure]
  | false =>
      simp only [Bool.false_eq_true, if_false, pure_bind, Id.run_bind]
      cases (Project.find files ".").run <;> rfl

theorem ofFile_lifted (path : String) :
    ProgramText.ofFile (lifted files : Files μ) path
      = pure (ProgramText.ofFile files path).run := by
  rw [ProgramText.ofFile, ProgramText.ofFile]
  by_cases hpath : path = ""
  · rw [if_pos hpath, if_pos hpath, Id.run_pure]
  · rw [if_neg hpath, if_neg hpath, Id.run_bind]
    refine (pure_bind _ _).trans ?_
    cases (files.read path).run <;> rfl

end Lifted

section Command

variable (files : Files Id) (input : Bytes) (interactive : Bool)

/-- A program that is asked for at a console is the one that is found in memory. -/
theorem exists_load (path : String) :
    let whole := (ProgramText.load files path { text := input } interactive).run
    ∃ text,
      Gives (ProgramText.load (lifted files) path {} interactive (terminal scripted)) { input }
        { code := whole.code, rest := {} }
        { input := text, output := Bytes.ofString whole.shown } ∧
      whole.rest = { text } := by
  rw [ProgramText.load, ProgramText.load, ofFile_lifted, pure_bind, Id.run_bind]
  cases (ProgramText.ofFile files path).run with
  | error e =>
      refine ⟨input, ?_, rfl⟩
      simp only [Id.run_pure, ofString_empty]
      exact Gives.pure _ _
  | ok code =>
      cases code with
      | cons b code =>
          refine ⟨input, ?_, rfl⟩
          simp only [Id.run_pure, ofString_empty]
          exact Gives.pure _ _
      | nil =>
          simp only [Terminal.memory_ask, readLine_eq_firstLine, pure_bind, Id.run_pure]
          refine ⟨(firstLine input).2, ?_, rfl⟩
          refine Gives.bind (Gives.bind (a := ()) rfl ((gives_readLine _).bind (Gives.pure _ _))) ?_
          exact Gives.pure _ _

/-- The machine of a program that was asked for starts with the question outside. -/
theorem joined_start (code : Bytes) (options : Options) (shown : String) :
    Joined { input, output := Bytes.ofString shown }
      (start code options {} { written := [Bytes.ofString ""] })
      (start code options { text := input } { written := [Bytes.ofString shown] }) := by
  have houtput : Sink.contents { written := [Bytes.ofString shown] }
      = Bytes.ofString shown ++ Sink.contents { written := [Bytes.ofString ""] } := by
    simp [Sink.contents, ofString_empty]
  obtain ⟨verbose, repeats, erases, profile⟩ := options
  cases verbose with
  | true => exact ⟨rfl, houtput, rfl⟩
  | false => exact ⟨rfl, houtput, rfl⟩

theorem exists_execute (config : Config) (fuel : Nat) :
    ∃ left t', Gives (Command.execute (lifted files) fuel config {} interactive (terminal scripted))
        { input } left t' ∧
      Completes t' left (Command.execute files fuel config { text := input } interactive).run := by
  obtain ⟨text, hload, hrest⟩ := exists_load files input interactive config.source
  rw [Command.execute, Command.execute, Id.run_bind]
  generalize (ProgramText.load files config.source { text := input } interactive).run = loaded
    at hload hrest
  cases hcode : loaded.code with
  | error e =>
      rw [hcode] at hload
      have hrefused : Completes { input := text, output := Bytes.ofString loaded.shown }
          (.refused (.program e "")) (.refused (.program e loaded.shown)) := by
        refine ⟨rfl, ?_, rfl, String.empty_append, by simp⟩
        simp [Command.Outcome.output, ofString_empty]
      exact ⟨_, _, hload.bind (Gives.pure _ _), hrefused⟩
  | ok code =>
      rw [hcode] at hload
      have hstart := joined_start text code config.options loaded.shown
      rw [← hrest] at hstart
      obtain ⟨report, t', hrun, hcompletes⟩ := exists_runAt hstart rfl fuel
      exact ⟨.ran report, t', hload.bind (hrun.bind (Gives.pure _ _)), hcompletes⟩

/-- An outcome of which nothing has appeared completes itself. -/
theorem completes_self (outcome : Command.Outcome) : Completes { input } outcome outcome :=
  ⟨rfl, rfl, rfl, String.empty_append, Iff.rfl⟩

theorem exists_command (fuel : Nat) (arguments : List String) :
    ∃ left t', Gives (Command.run (lifted files) fuel arguments {} interactive (terminal scripted))
        { input } left t' ∧
      Completes t' left
        (Command.run files fuel arguments { text := input } interactive).run := by
  rw [Command.run, Command.run]
  cases Arguments.parse arguments with
  | error e => exact ⟨_, _, Gives.pure _ _, completes_self input _⟩
  | ok a =>
      dsimp only
      cases a.serve with
      | true => exact ⟨_, _, Gives.pure _ _, completes_self input _⟩
      | false =>
          simp only [Bool.false_eq_true, if_false, configure_lifted, pure_bind, Id.run_bind]
          cases (Command.configure files a).run with
          | error r => exact ⟨_, _, Gives.pure _ _, completes_self input _⟩
          | ok config => exact exists_execute files input interactive config fuel

/--
**A console shows what the command comes to.**  Let a command be carried out at a console whose
input is some text.  It serves an editor or gives an exit code just as it does in memory with the
same input, and in the end just that output, those lines of the log and those complaints have
appeared which it comes to in memory.
-/
theorem console_shows_outcome (fuel : Nat) (arguments : List String) :
    let outcome : Command.Outcome :=
      (Command.run files fuel arguments { text := input } interactive).run
    let shown := ((run scripted (lifted files) fuel arguments interactive).run { input }).run
    (shown.1 = .serve ↔ outcome = .serve) ∧ shown.1.exitCode = outcome.exitCode ∧
      shown.2.output = outcome.output ∧ shown.2.log = outcome.log ∧
      shown.2.complaints = outcome.complaints := by
  intro outcome shown
  obtain ⟨left, t, hrun, h⟩ := exists_command files input interactive fuel arguments
  have hshown : shown = (left, _) :=
    hrun.bind (Gives.bind (a := ()) rfl ((gives_log _ _).bind
      (Gives.bind (a := ()) rfl (Gives.pure _ _))))
  rw [hshown]
  exact ⟨h.served, h.exitCode, h.output, h.log, h.complaints⟩

end Command

end Console

end TimeTape
