/-
The manifest that is found.

The search asks in one directory after the other whether there is a manifest, from the inside out,
and loads the first that there is.  To say what it asks and what it leaves alone, it is run on files
that keep a record: `Files.recorded` answers as the files do and writes down every request.

A manifest that is there but cannot be read, or that the decoder refuses, is an answer like any
other, so it ends the search with an error.  If there is none, the search ends at the root, to which
going up always comes.
-/
import TimeTape.Project
import TimeTape.Proofs.Paths

namespace TimeTape

namespace Files

/-! ### A record of what is asked -/

/-- What is asked of files. -/
inductive Request where
  | isPresent (path : String)
  | read (path : String)
  deriving DecidableEq, Repr

/-- Files that answer as they do and keep a record of what they are asked. -/
def recorded (files : Files Id) : Files (StateM (List Request)) where
  workingDirectory := pure files.workingDirectory
  isPresent path := modifyGet fun record => (files.isPresent path, record ++ [.isPresent path])
  read path := modifyGet fun record => (files.read path, record ++ [.read path])

/-- With a record kept, a program gives the answer that it gives without, and makes the requests. -/
def Asks {α : Type} (program : StateM (List Request) α) (answer : Id α) (requests : List Request) :
    Prop :=
  ∀ record, program.run record = (answer.run, record ++ requests)

section Asks

variable {α β : Type}

theorem Asks.pure (a : α) : Asks (pure a) (pure a) [] := by
  intro record
  rw [List.append_nil]
  rfl

/-- One program after the other makes the requests of the one and then those of the other. -/
theorem Asks.bind {program : StateM (List Request) α} {answer : Id α} {first rest : List Request}
    {next : α → StateM (List Request) β} {answer' : α → Id β} (h : Asks program answer first)
    (hnext : Asks (next answer.run) (answer' answer.run) rest) :
    Asks (program >>= next) (answer >>= answer') (first ++ rest) := by
  intro record
  rw [StateT.run_bind, h record, ← List.append_assoc]
  exact hnext (record ++ first)

variable (files : Files Id)

theorem asks_workingDirectory : Asks files.recorded.workingDirectory files.workingDirectory [] :=
  Asks.pure files.workingDirectory

theorem asks_isPresent (path : String) :
    Asks (files.recorded.isPresent path) (files.isPresent path) [.isPresent path] :=
  fun _ => rfl

theorem asks_read (path : String) :
    Asks (files.recorded.read path) (files.read path) [.read path] :=
  fun _ => rfl

end Asks

end Files

namespace Project

/-! ### The directories in turn -/

section InTurn

variable (files : Files Id) (decode : Decoder)

/-- Where the manifest of a directory is. -/
def manifestPath (dir : String) : String :=
  Path.join dir Manifest.fileName

/-- Whether there is a manifest in a directory. -/
def hasManifest (dir : String) : Bool :=
  files.isPresent (manifestPath dir)

/-- What is asked while the manifest is looked for in some directories. -/
def asked : List String → List Files.Request
  | [] => []
  | dir :: more =>
    .isPresent (manifestPath dir) ::
      if hasManifest files dir then [.read (manifestPath dir)] else asked more

theorem asks_load (dir : String) :
    Files.Asks (load files.recorded dir decode) (load files dir decode)
      [.read (manifestPath dir)] := by
  show Files.Asks _ _ ([.read (manifestPath dir)] ++ [])
  refine (Files.asks_read files _).bind ?_
  cases (files.read (Path.join dir Manifest.fileName)).run with
  | error _ => exact Files.Asks.pure _
  | ok text =>
      dsimp only
      cases decode text with
      | error _ => exact Files.Asks.pure _
      | ok _ => exact (Files.asks_workingDirectory files).bind (Files.Asks.pure _)

theorem asks_loadFirst (dirs : List String) :
    Files.Asks (loadFirst files.recorded decode dirs) (loadFirst files decode dirs)
      (asked files dirs) := by
  induction dirs with
  | nil => exact Files.Asks.pure _
  | cons dir more ih =>
      show Files.Asks _ _ ([.isPresent (manifestPath dir)] ++
        if hasManifest files dir then [.read (manifestPath dir)] else asked files more)
      refine (Files.asks_isPresent files _).bind ?_
      show Files.Asks (if hasManifest files dir = true then _ else _)
        (if hasManifest files dir = true then _ else _) _
      cases hasManifest files dir with
      | true =>
          show Files.Asks
            (load files.recorded dir decode >>= fun loaded => pure (loaded.map some)) _
            ([.read (manifestPath dir)] ++ [])
          exact (asks_load files decode dir).bind (Files.Asks.pure _)
      | false => exact ih

theorem asks_find (start : String) :
    Files.Asks (find files.recorded start decode) (find files start decode)
      (asked files (Path.ancestors (Path.absolute files.workingDirectory start))) := by
  rw [← List.nil_append (asked files _)]
  exact (Files.asks_workingDirectory files).bind (asks_loadFirst files decode _)

theorem loadFirst_cons (dir : String) (more : List String) :
    loadFirst files decode (dir :: more)
      = if hasManifest files dir then (load files dir decode).run.map some
        else loadFirst files decode more :=
  rfl

variable {files decode}

/-- Directories without a manifest are passed by. -/
theorem loadFirst_append {front : List String} (h : ∀ dir ∈ front, hasManifest files dir = false)
    (back : List String) :
    loadFirst files decode (front ++ back) = loadFirst files decode back := by
  induction front with
  | nil => rfl
  | cons dir more ih =>
      obtain ⟨hdir, hmore⟩ := List.forall_mem_cons.mp h
      rw [List.cons_append, loadFirst_cons, hdir]
      exact ih hmore

theorem asked_append {front : List String} (h : ∀ dir ∈ front, hasManifest files dir = false)
    (back : List String) :
    asked files (front ++ back)
      = front.map (fun dir => .isPresent (manifestPath dir)) ++ asked files back := by
  induction front with
  | nil => rfl
  | cons dir more ih =>
      obtain ⟨hdir, hmore⟩ := List.forall_mem_cons.mp h
      rw [List.cons_append, asked, hdir, List.map_cons, List.cons_append]
      exact congrArg _ (ih hmore)

end InTurn

/-! ### From the inside out -/

section Upward

variable (files : Files Id) (start : String) (decode : Decoder)

/-- The directory some steps above the one where the search starts. -/
def directory (steps : Nat) : String :=
  Path.parent^[steps] (Path.absolute files.workingDirectory start)

/-- The search with a record kept: what it gives and what it asks. -/
def search : Except ProjectError (Option Manifest) × List Files.Request :=
  (find files.recorded start decode).run []

theorem search_eq :
    search files start decode = (find files start decode,
      asked files (Path.ancestors (Path.absolute files.workingDirectory start))) := by
  rw [search, asks_find files decode start [], List.nil_append, Id.run]

variable {files start}

/-- Going up comes to the root, and the directories on the way are those that are looked at. -/
theorem exists_top (h : Path.isAbsolute (Path.absolute files.workingDirectory start) = true) :
    ∃ top, (∀ k < top,
        (directory files start (k + 1)).length < (directory files start k).length) ∧
      directory files start top = "/" ∧
      Path.ancestors (Path.absolute files.workingDirectory start)
        = (List.range (top + 1)).map (directory files start) := by
  obtain ⟨names, hnames, hstart⟩ := Path.exists_names h
  obtain ⟨hshorter, hroot⟩ := Path.iterate_parent_shrinks hnames
  have hancestors := Path.ancestors_render hnames
  rw [← hstart] at hshorter hroot hancestors
  exact ⟨names.length, hshorter, hroot, hancestors⟩

theorem directory_of_top_le {top k : Nat} (htop : directory files start top = "/") (h : top ≤ k) :
    directory files start k = "/" := by
  obtain ⟨more, rfl⟩ := Nat.exists_eq_add_of_le' h
  rw [directory, Function.iterate_add_apply, ← directory, htop]
  exact Function.iterate_fixed Path.parent_root more

theorem exists_range_split {near top : Nat} (h : near ≤ top) :
    ∃ beyond, List.range (top + 1) = List.range near ++ near :: beyond := by
  refine ⟨(List.range (top - near)).map (near + 1 + ·), ?_⟩
  rw [← List.singleton_append, ← List.append_assoc, ← List.range_succ, ← List.range_add]
  exact congrArg List.range (by omega)

/-- Directories without a manifest are asked, one after the other, and passed by. -/
theorem lookup_append (below : Nat) (above : List String)
    (h : ∀ k < below, hasManifest files (directory files start k) = false) :
    loadFirst files decode ((List.range below).map (directory files start) ++ above)
      = loadFirst files decode above ∧
    asked files ((List.range below).map (directory files start) ++ above)
      = (List.range below).map (fun k => .isPresent (manifestPath (directory files start k)))
        ++ asked files above := by
  have hnone : ∀ dir ∈ (List.range below).map (directory files start),
      hasManifest files dir = false :=
    List.forall_mem_map.mpr fun k hk => h k (List.mem_range.mp hk)
  refine ⟨loadFirst_append hnone above, ?_⟩
  rw [asked_append hnone, List.map_map]
  rfl

/--
**The search ends, and it ends at the nearest manifest.**  Going up makes the path shorter until it
is the root, which is its own parent.  A manifest with none below it is loaded, whatever the decoder
makes of it, and nothing is asked of the directories above.  If there is no manifest, every
directory is asked once, and none is found.
-/
theorem nearest_manifest_is_loaded (files : Files Id) (start : String) (decode : Decoder)
    (h : Path.isAbsolute (Path.absolute files.workingDirectory start) = true) :
    (search files start decode).1 = find files start decode ∧
    ∃ top, (∀ k < top,
        (directory files start (k + 1)).length < (directory files start k).length) ∧
      directory files start top = "/" ∧ Path.parent "/" = "/" ∧
      (∀ near, hasManifest files (directory files start near) = true →
        (∀ k < near, hasManifest files (directory files start k) = false) →
        near ≤ top ∧
        find files start decode = (load files (directory files start near) decode).run.map some ∧
        (search files start decode).2
          = (List.range (near + 1)).map
              (fun k => .isPresent (manifestPath (directory files start k)))
            ++ [.read (manifestPath (directory files start near))]) ∧
      ((∀ k, hasManifest files (directory files start k) = false) →
        find files start decode = .ok none ∧
        (search files start decode).2
          = (List.range (top + 1)).map
              (fun k => .isPresent (manifestPath (directory files start k)))) := by
  obtain ⟨top, hshorter, hroot, hancestors⟩ := exists_top h
  have hfind : find files start decode
      = loadFirst files decode ((List.range (top + 1)).map (directory files start)) :=
    congrArg (loadFirst files decode) hancestors
  rw [search_eq, hancestors]
  refine ⟨rfl, top, hshorter, hroot, Path.parent_root, ?_, ?_⟩
  · intro near hnear hbelow
    have hle : near ≤ top := by
      by_contra hbeyond
      have hsame := directory_of_top_le hroot (Nat.le_of_not_le hbeyond)
      rw [hsame, ← hroot, hbelow top (Nat.lt_of_not_le hbeyond)] at hnear
      cases hnear
    obtain ⟨beyond, hbeyond⟩ := exists_range_split hle
    obtain ⟨hload, hasked⟩ :=
      lookup_append decode near ((near :: beyond).map (directory files start)) hbelow
    rw [hfind, hbeyond, List.map_append, hload, hasked, List.map_cons, loadFirst_cons, asked, hnear,
      List.range_succ, List.map_append, List.append_assoc]
    exact ⟨hle, rfl, rfl⟩
  · intro hnone
    obtain ⟨hload, hasked⟩ := lookup_append decode (top + 1) [] fun k _ => hnone k
    rw [List.append_nil] at hload hasked
    rw [hfind, hload, hasked, asked, List.append_nil]
    exact ⟨rfl, rfl⟩

end Upward

/-- A directory where a manifest should be, below a root with a manifest of its own. -/
def misplaced : Files Id where
  workingDirectory := "/a"
  isPresent path := path = "/a/chrono.toml" || path = "/chrono.toml"
  read path :=
    if path = "/a/chrono.toml" then .error ⟨path, .isDirectory⟩
    else if path = "/chrono.toml" then .ok []
    else .error ⟨path, .missing⟩

theorem nearest_manifest_is_loaded_at_misplaced :
    Path.isAbsolute (Path.absolute misplaced.workingDirectory "../a/b/.") = true ∧
    find misplaced "../a/b/."
      = .error (.unreadable "/a/chrono.toml" ⟨"/a/chrono.toml", .isDirectory⟩) ∧
    (search misplaced "../a/b/." Manifest.parse).2
      = [.isPresent "/a/b/chrono.toml", .isPresent "/a/chrono.toml", .read "/a/chrono.toml"] := by
  have habsolute :
      Path.isAbsolute (Path.absolute misplaced.workingDirectory "../a/b/.") = true := by
    decide +kernel
  obtain ⟨-, _, -, -, -, hnear, -⟩ :=
    nearest_manifest_is_loaded misplaced "../a/b/." Manifest.parse habsolute
  obtain ⟨-, hfound, hasked⟩ := hnear 1 (by decide +kernel) (by decide +kernel)
  have hpath :
      Path.join (directory misplaced "../a/b/." 1) Manifest.fileName = "/a/chrono.toml" := by
    decide +kernel
  refine ⟨habsolute, hfound.trans ?_, hasked.trans (by decide +kernel)⟩
  rw [load, hpath]
  rfl

end Project

end TimeTape
