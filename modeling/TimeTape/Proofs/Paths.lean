/-
The directories above a directory.

A clean absolute path is a slash with names behind it that are separated by slashes.  The names can
be read back from it, since none of them is empty, is a dot or two dots, or has a slash in it.

The directory that holds a path is what stands in front of its last slash, cleaned.  For a clean
absolute path it is the path without its last name, which is shorter, and the root holds itself.  So
going from a directory to the one that holds it comes to the root after as many steps as there are
names, and the directories on the way are those that `ancestors` lists.
-/
import TimeTape.Files.Path
import TimeTape.Proofs.Text
import Mathlib.Data.List.Induction
import Mathlib.Logic.Function.Iterate

namespace TimeTape.Path

/-! ### The parts of a path -/

/-- A part of a path that leads from a directory to something in it. -/
structure IsName (part : String) : Prop where
  nonempty : part ≠ ""
  notDot : part ≠ "."
  notDotDot : part ≠ ".."
  noSlash : '/' ∉ part.toList

theorem mem_parts {path part : String} (h : part ∈ parts path) :
    part ≠ "" ∧ part ≠ "." ∧ '/' ∉ part.toList := by
  obtain ⟨hmem, hkept⟩ := List.mem_filter.mp h
  obtain ⟨chars, hchars, rfl⟩ := List.mem_map.mp hmem
  simp only [Bool.and_eq_true, decide_eq_true_eq] at hkept
  refine ⟨hkept.1, hkept.2, ?_⟩
  rw [String.toList_ofList]
  exact Text.not_mem_of_mem_splitOn hchars

@[simp] theorem parts_empty : parts "" = [] := by
  simp [parts]

/-- A slash separates parts from parts. -/
theorem parts_append_slash (a b : String) : parts (a ++ "/" ++ b) = parts a ++ parts b := by
  have hchars : (a ++ "/" ++ b).toList = a.toList ++ '/' :: b.toList := by simp
  rw [parts, hchars, List.splitOn_append_cons_self, List.map_append, List.filter_append]
  rfl

theorem parts_of_isName {name : String} (h : IsName name) : parts name = [name] := by
  have hwhole : name.toList.splitOn '/' = [name.toList] := List.splitOn_eq_singleton h.noSlash
  rw [parts, hwhole]
  simp [h.nonempty, h.notDot]

theorem parts_intercalate {names : List String} (h : ∀ n ∈ names, IsName n) :
    parts ("/".intercalate names) = names := by
  induction names with
  | nil => simp
  | cons name rest ih =>
      obtain ⟨hname, hrest⟩ := List.forall_mem_cons.mp h
      cases rest with
      | nil => rw [String.intercalate_singleton, parts_of_isName hname]
      | cons name' rest =>
          rw [String.intercalate_cons_cons, parts_append_slash, parts_of_isName hname, ih hrest]
          rfl

theorem parts_render {names : List String} (h : ∀ n ∈ names, IsName n) :
    parts (render true names) = names := by
  have hslash : render true names = "" ++ "/" ++ "/".intercalate names := by simp [render]
  rw [hslash, parts_append_slash, parts_empty, parts_intercalate h, List.nil_append]

/-! ### Clean paths -/

section Cleaning

variable {fromRoot : Bool} {clean : List String} {part n : String}

theorem mem_push (h : n ∈ push fromRoot clean part) : n ∈ clean ∨ n = part := by
  unfold push at h
  split at h
  · rcases List.mem_cons.mp h with rfl | h
    · exact Or.inr rfl
    · exact Or.inl h
  · rename_i hpart
    have hdots : part = ".." := Decidable.not_not.mp hpart
    split at h
    · split at h
      · cases h
      · exact Or.inr (hdots ▸ List.mem_singleton.mp h)
    · split at h
      · rcases List.mem_cons.mp h with rfl | h
        · exact Or.inr hdots.symm
        · exact Or.inl h
      · exact Or.inl (List.mem_cons_of_mem _ h)

theorem mem_foldl_push (parts : List String) (h : n ∈ parts.foldl (push fromRoot) clean) :
    n ∈ clean ∨ n ∈ parts := by
  induction parts generalizing clean with
  | nil => exact Or.inl h
  | cons part rest ih =>
      rcases ih h with hpushed | hrest
      · rcases mem_push hpushed with hclean | rfl
        · exact Or.inl hclean
        · exact Or.inr List.mem_cons_self
      · exact Or.inr (List.mem_cons_of_mem part hrest)

/-- Behind a slash no two dots are left. -/
theorem dots_not_mem_push (h : ".." ∉ clean) : ".." ∉ push true clean part := by
  unfold push
  split
  · rename_i hpart
    rw [List.mem_cons, not_or]
    exact ⟨fun hc => hpart hc.symm, h⟩
  · split
    · exact List.not_mem_nil
    · rename_i last rest
      rw [List.mem_cons, not_or] at h
      rw [if_neg fun hlast => h.1 hlast.symm]
      exact h.2

theorem dots_not_mem_foldl_push (parts : List String) (h : ".." ∉ clean) :
    ".." ∉ parts.foldl (push true) clean := by
  induction parts generalizing clean with
  | nil => exact h
  | cons part rest ih => exact ih (dots_not_mem_push h)

theorem push_of_ne (h : part ≠ "..") : push fromRoot clean part = part :: clean :=
  if_pos h

/-- Names are taken as they are. -/
theorem foldl_push_of_isName {names : List String} (h : ∀ n ∈ names, IsName n) :
    names.foldl (push fromRoot) clean = names.reverse ++ clean := by
  induction names generalizing clean with
  | nil => rfl
  | cons name rest ih =>
      obtain ⟨hname, hrest⟩ := List.forall_mem_cons.mp h
      rw [List.foldl_cons, push_of_ne hname.notDotDot, ih hrest, List.reverse_cons,
        List.append_assoc, List.singleton_append]

end Cleaning

theorem mem_cleanParts {path n : String} (h : n ∈ cleanParts path) : n ∈ parts path := by
  rcases mem_foldl_push (parts path) (List.mem_reverse.mp h) with hnil | hmem
  · cases hnil
  · exact hmem

theorem isName_of_mem_cleanParts {path n : String} (habsolute : isAbsolute path = true)
    (h : n ∈ cleanParts path) : IsName n := by
  obtain ⟨hnonempty, hdot, hslash⟩ := mem_parts (mem_cleanParts h)
  refine ⟨hnonempty, hdot, ?_, hslash⟩
  rintro rfl
  rw [cleanParts, habsolute] at h
  exact dots_not_mem_foldl_push (parts path) List.not_mem_nil (List.mem_reverse.mp h)

theorem cleanParts_of_parts {path : String} (h : ∀ n ∈ parts path, IsName n) :
    cleanParts path = parts path := by
  rw [cleanParts, foldl_push_of_isName h, List.append_nil, List.reverse_reverse]

theorem isAbsolute_iff {path : String} :
    isAbsolute path = true ↔ ∃ rest, path.toList = '/' :: rest := by
  rw [isAbsolute, String.startsWith_string_iff]
  constructor
  · rintro ⟨rest, hrest⟩
    exact ⟨rest, hrest.symm⟩
  · rintro ⟨rest, hrest⟩
    exact ⟨rest, hrest.symm⟩

theorem isAbsolute_render (names : List String) : isAbsolute (render true names) = true := by
  rw [isAbsolute_iff]
  exact ⟨("/".intercalate names).toList, by simp [render]⟩

theorem exists_intercalate_cons (name : String) (names : List String) :
    ∃ rest, "/".intercalate (name :: names) = name ++ rest := by
  cases names with
  | nil => exact ⟨"", by simp⟩
  | cons name' names =>
      refine ⟨"/" ++ "/".intercalate (name' :: names), ?_⟩
      rw [String.intercalate_cons_cons, String.append_assoc]

/-- A path that is relative stays so when it is cleaned. -/
theorem isAbsolute_of_clean {path : String} (h : isAbsolute (clean path) = true) :
    isAbsolute path = true := by
  by_contra hrelative
  rw [Bool.not_eq_true] at hrelative
  rw [clean, hrelative, isAbsolute_iff] at h
  obtain ⟨rest, hrest⟩ := h
  cases hnames : cleanParts path with
  | nil =>
      rw [hnames] at hrest
      cases hrest
  | cons name names =>
      -- It starts with its first name, and there is no slash in that.
      obtain ⟨hnonempty, -, hslash⟩ := mem_parts (mem_cleanParts (hnames ▸ List.mem_cons_self))
      obtain ⟨behind, hbehind⟩ := exists_intercalate_cons name names
      rw [hnames, render, if_neg (by decide), if_neg (by simp), hbehind,
        String.toList_append] at hrest
      cases hchars : name.toList with
      | nil => exact hnonempty (String.toList_eq_nil_iff.mp hchars)
      | cons c chars =>
          rw [hchars, List.cons_append] at hrest
          rw [hchars, (List.cons.inj hrest).1] at hslash
          exact hslash List.mem_cons_self

/-- A path that has been resolved is clean, unless there was nothing to resolve. -/
theorem absolute_cases (workingDirectory start : String) :
    absolute workingDirectory start = "" ∨
      ∃ path, absolute workingDirectory start = clean path := by
  unfold absolute join
  split
  · exact Or.inr ⟨_, rfl⟩
  · split
    · exact Or.inr ⟨_, rfl⟩
    · split
      · exact Or.inr ⟨_, rfl⟩
      · exact Or.inl rfl

/-- An absolute path that has been resolved is a slash with names behind it. -/
theorem exists_names {workingDirectory start : String}
    (h : isAbsolute (absolute workingDirectory start) = true) :
    ∃ names, (∀ n ∈ names, IsName n) ∧ absolute workingDirectory start = render true names := by
  rcases absolute_cases workingDirectory start with hnothing | ⟨path, hpath⟩
  · rw [hnothing] at h
    exact absurd h (by decide)
  · rw [hpath] at h ⊢
    have habsolute := isAbsolute_of_clean h
    refine ⟨cleanParts path, fun n hn => isName_of_mem_cleanParts habsolute hn, ?_⟩
    rw [clean, habsolute]

/-! ### Going up -/

/-- The directory that holds a path: what stands up to its last slash, cleaned. -/
def parent (path : String) : String :=
  clean (String.ofList (path.toList.rdropWhile (· ≠ '/')))

theorem parent_append_name (dir : String) {name : String} (h : '/' ∉ name.toList) :
    parent (dir ++ "/" ++ name) = clean (dir ++ "/") := by
  have hchars : (dir ++ "/" ++ name).toList = (dir ++ "/").toList ++ name.toList := by simp
  have hname : ∀ c ∈ name.toList.reverse, decide (c ≠ '/') = true := by
    intro c hc
    rw [decide_eq_true_eq]
    rintro rfl
    exact h (List.mem_reverse.mp hc)
  have hslash : (dir ++ "/").toList.rdropWhile (· ≠ '/') = (dir ++ "/").toList := by
    rw [List.rdropWhile_eq_self_iff]
    simp
  rw [parent, hchars, List.rdropWhile, List.reverse_append, List.dropWhile_append_of_pos hname,
    ← List.rdropWhile, hslash, String.ofList_toList]

theorem clean_of_parts {path : String} (habsolute : isAbsolute path = true)
    (h : ∀ n ∈ parts path, IsName n) : clean path = render true (parts path) := by
  rw [clean, habsolute, cleanParts_of_parts h]

/-- A slash behind a path that is absolute is dropped. -/
theorem clean_append_slash {dir : String} (habsolute : isAbsolute (dir ++ "/") = true)
    (h : ∀ n ∈ parts dir, IsName n) : clean (dir ++ "/") = render true (parts dir) := by
  have hparts : parts (dir ++ "/") = parts dir := by
    have happend := parts_append_slash dir ""
    rwa [String.append_empty, parts_empty, List.append_nil] at happend
  rw [clean_of_parts habsolute (hparts.symm ▸ h), hparts]

theorem render_root : render true [] = "/" := by
  simp [render]

theorem clean_root : clean ("" ++ "/") = render true [] := by
  have habsolute : isAbsolute ("" ++ "/") = true := isAbsolute_iff.mpr ⟨[], by simp⟩
  rw [clean_append_slash habsolute (by simp), parts_empty]

theorem parent_root : parent "/" = "/" := by
  have hroot : "/" = "" ++ "/" ++ "" := by simp
  have hparent := parent_append_name "" (show '/' ∉ "".toList by simp)
  rw [← hroot, clean_root, render_root] at hparent
  exact hparent

/-- A slash and the last name stand behind the path of the directory above, or behind nothing if that
is the root. -/
theorem exists_render_concat (names : List String) (name : String) :
    ∃ dir, render true (names ++ [name]) = dir ++ "/" ++ name ∧
      (dir = "" ∧ names = [] ∨ dir = render true names) := by
  cases names with
  | nil => exact ⟨"", by simp [render], Or.inl ⟨rfl, rfl⟩⟩
  | cons first rest =>
      refine ⟨render true (first :: rest), ?_, Or.inr rfl⟩
      simp only [render, if_true]
      rw [String.intercalate_append_of_ne_nil (by simp) (by simp), String.intercalate_singleton]
      simp [String.append_assoc]

section OneUp

variable {names : List String} {name : String}

/-- The directory that holds a directory has one name less. -/
theorem parent_render (h : ∀ n ∈ names, IsName n) (hname : IsName name) :
    parent (render true (names ++ [name])) = render true names := by
  obtain ⟨dir, hdir, hcases⟩ := exists_render_concat names name
  rw [hdir, parent_append_name dir hname.noSlash]
  rcases hcases with ⟨rfl, rfl⟩ | rfl
  · exact clean_root
  · have hparts := parts_render h
    have habsolute : isAbsolute (render true names ++ "/") = true := by
      obtain ⟨rest, hrest⟩ := isAbsolute_iff.mp (isAbsolute_render names)
      rw [isAbsolute_iff, String.toList_append, hrest]
      exact ⟨rest ++ "/".toList, rfl⟩
    rw [clean_append_slash habsolute (hparts.symm ▸ h), hparts]

theorem iterate_parent_render (h : ∀ n ∈ names, IsName n) (hname : IsName name) (k : Nat) :
    parent^[k + 1] (render true (names ++ [name])) = parent^[k] (render true names) := by
  rw [Function.iterate_succ_apply, parent_render h hname]

theorem length_render_lt (hname : IsName name) :
    (render true names).length < (render true (names ++ [name])).length := by
  have hpos : 0 < name.length := by
    rw [Nat.pos_iff_ne_zero]
    exact fun hzero => hname.nonempty (String.length_eq_zero_iff.mp hzero)
  obtain ⟨dir, hdir, hcases⟩ := exists_render_concat names name
  rw [hdir, String.length_append, String.length_append]
  rcases hcases with ⟨rfl, rfl⟩ | rfl
  · rw [render_root]
    omega
  · omega

end OneUp

/-- The directories above a directory are those that going up comes to, from the inside out. -/
theorem upward_eq_iterate {names : List String} (h : ∀ n ∈ names, IsName n) :
    upward names.reverse
      = (List.range (names.length + 1)).map fun k => parent^[k] (render true names) := by
  induction names using List.reverseRecOn with
  | nil => rfl
  | append_singleton names name ih =>
      obtain ⟨hnames, hname⟩ := List.forall_mem_append.mp h
      have hup := iterate_parent_render hnames (hname name (List.mem_singleton_self name))
      have hrange : List.range (names.length + 1 + 1)
          = 0 :: (List.range (names.length + 1)).map Nat.succ := List.range_succ_eq_map
      rw [List.reverse_append, List.reverse_singleton, List.singleton_append, upward, ih hnames,
        List.length_append, List.length_singleton, hrange, List.map_cons, List.map_map,
        List.reverse_cons, List.reverse_reverse]
      refine congrArg _ (List.map_congr_left ?_)
      intro k _
      exact (hup k).symm

theorem ancestors_render {names : List String} (h : ∀ n ∈ names, IsName n) :
    ancestors (render true names)
      = (List.range (names.length + 1)).map fun k => parent^[k] (render true names) := by
  have hparts := parts_render h
  rw [ancestors, cleanParts_of_parts (hparts.symm ▸ h), hparts, upward_eq_iterate h]

/-- Every step up makes the path shorter, until the root is reached. -/
theorem iterate_parent_shrinks {names : List String} (h : ∀ n ∈ names, IsName n) :
    (∀ k < names.length, (parent^[k + 1] (render true names)).length
      < (parent^[k] (render true names)).length) ∧
    parent^[names.length] (render true names) = "/" := by
  induction names using List.reverseRecOn with
  | nil =>
      rw [List.length_nil, Function.iterate_zero_apply]
      exact ⟨fun k hk => absurd hk (Nat.not_lt_zero k), render_root⟩
  | append_singleton names name ih =>
      obtain ⟨hnames, hlast⟩ := List.forall_mem_append.mp h
      have hname := hlast name (List.mem_singleton_self name)
      have hup := iterate_parent_render hnames hname
      obtain ⟨hshorter, hroot⟩ := ih hnames
      rw [List.length_append, List.length_singleton, hup]
      refine ⟨?_, hroot⟩
      intro k hk
      cases k with
      | zero =>
          rw [hup, Function.iterate_zero_apply, Function.iterate_zero_apply]
          exact length_render_lt hname
      | succ k =>
          rw [hup, hup]
          exact hshorter k (by omega)

end TimeTape.Path
