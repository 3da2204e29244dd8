/-
The breakpoints as a table.

A debugger keeps its breakpoints under their indices, each with whether it is enabled.  What the
table holds at an index can be told from the changes that have been made, without following it from
one change to the next: the index is listed if the latest change that could list it or strike it out
has listed it, and the breakpoint is enabled unless the latest change that could switch it has
disabled it.  `standing` reads the table off the changes in this way, and `entry` is what one change
does to it.  The two agree because a breakpoint is only ever switched while it is listed.

A change that is refused is not made, and running the machine makes none.  The list is made from the
entries by sorting, and comes out the same in whatever order they are visited.
-/
import TimeTape.Proofs.Debugging

namespace TimeTape.Debugger

open Machine

/-! ### Changes -/

namespace Edit

variable {changes : List Edit} {e : Edit}

/-- Whether a change decides if an index is listed. -/
def lists (i : Int) : Edit → Bool
  | set j | remove j => j = i
  | clear => true
  | enable _ | disable _ => false

/-- Whether a change decides if the breakpoint at an index is enabled. -/
def switches (i : Int) : Edit → Bool
  | set j | enable j | disable j => j = i
  | remove _ | clear => false

/-- The latest of some changes for which `decides` holds. -/
def latest (decides : Edit → Bool) (changes : List Edit) : Option Edit :=
  (changes.filter decides).getLast?

/-- What the table holds at an index after some changes. -/
def standing (changes : List Edit) (i : Int) : Option Bool :=
  if latest (lists i) changes = some (.set i)
  then some (latest (switches i) changes ≠ some (.disable i)) else none

/-- What the table holds at an index after one change, if it held `old` before. -/
def entry (i : Int) (old : Option Bool) : Edit → Option Bool
  | set j | enable j => if j = i then some true else old
  | disable j => if j = i then some false else old
  | remove j => if j = i then none else old
  | clear => none

/-- Whether a change is refused, in a program of some size and with some indices listed. -/
def Refused (size : Nat) (listed : Int → Prop) : Edit → Prop
  | set i => i < 0 ∨ size ≤ i
  | remove i | enable i | disable i => ¬listed i
  | clear => False

theorem latest_concat (decides : Edit → Bool) (changes : List Edit) (e : Edit) :
    latest decides (changes ++ [e]) = if decides e then some e else latest decides changes := by
  rw [latest, List.filter_append]
  by_cases he : decides e = true
  · simp [he]
  · simp [he, latest]

theorem isSome_standing {i : Int} :
    (standing changes i).isSome = true ↔ latest (lists i) changes = some (.set i) := by
  rw [standing]
  by_cases hset : latest (lists i) changes = some (.set i)
  · simp [hset]
  · simp [hset]

/-- A change that is made does to what stands in the table what it says. -/
theorem standing_concat {size : Nat} (i : Int)
    (h : ¬e.Refused size fun j => (standing changes j).isSome = true) :
    standing (changes ++ [e]) i = e.entry i (standing changes i) := by
  cases e with
  | set j =>
      by_cases hj : j = i
      · simp [standing, latest_concat, lists, switches, entry, hj]
      · simp [standing, latest_concat, lists, switches, entry, hj]
  | remove j =>
      by_cases hj : j = i
      · simp [standing, latest_concat, lists, entry, hj]
      · simp [standing, latest_concat, lists, switches, entry, hj]
  | enable j | disable j =>
      by_cases hj : j = i
      · -- What is switched is listed, and switching it does not decide about that.
        have hlisted := isSome_standing.mp (not_not.mp h)
        subst hj
        simp [standing, latest_concat, lists, switches, entry, hlisted]
      · simp [standing, latest_concat, lists, switches, entry, hj]
  | clear => simp [standing, latest_concat, lists, entry]

end Edit

/-! ### The table of a debugger -/

variable {d d' : Debugger} {e : Edit}

/-- A change is refused for the reasons given, and for no others. -/
theorem exists_refusal_iff :
    (∃ refusal, d.edit e = .error refusal) ↔
      e.Refused d.machine.program.standard.size (· ∈ d.breakpoints) := by
  cases e with
  | set i =>
      rw [edit, set]
      by_cases hin : 0 ≤ i ∧ i < d.machine.program.standard.size
      · simp only [if_pos hin, Edit.Refused, reduceCtorEq, exists_false, false_iff]
        omega
      · simp only [if_neg hin, Edit.Refused, Except.error.injEq, exists_eq', true_iff]
        omega
  | remove i =>
      rw [edit, remove]
      by_cases hi : i ∈ d.breakpoints <;> simp [Edit.Refused, hi]
  | enable i | disable i =>
      rw [edit, setEnabled]
      by_cases hi : i ∈ d.breakpoints <;> simp [Edit.Refused, hi]
  | clear => simp [edit, Edit.Refused]

theorem getElem?_of_edit (h : d.edit e = .ok d') (i : Int) :
    d'.breakpoints[i]? = e.entry i d.breakpoints[i]? := by
  cases e with
  | set j | enable j | disable j =>
      rw [eq_of_ite h]
      simp [Std.TreeMap.getElem?_insert, Edit.entry]
  | remove j =>
      rw [eq_of_ite h]
      simp [Std.TreeMap.getElem?_erase, Edit.entry]
  | clear =>
      obtain rfl := Except.ok.inj h
      simp [clear, Edit.entry]

/-- The rows of the list are the entries of the table, each with the byte of the program. -/
theorem mem_list_iff {row : Breakpoint} :
    row ∈ d.list ↔ d.breakpoints[row.index]? = some row.active ∧
      row.glyph = d.machine.program.standard.glyphAt row.index := by
  rw [list, rows, (List.mergeSort_perm _ _).mem_iff, List.mem_map]
  constructor
  · rintro ⟨⟨i, active⟩, hmem, rfl⟩
    exact ⟨Std.TreeMap.mem_toList_iff_getElem?_eq_some.mp hmem, rfl⟩
  · rintro ⟨hentry, hglyph⟩
    refine ⟨(row.index, row.active), Std.TreeMap.mem_toList_iff_getElem?_eq_some.mpr hentry, ?_⟩
    simp only [Debugger.row, ← hglyph]

/-- In whatever order the entries of the table are visited, their rows are ascending. -/
theorem pairwise_rows {entries : List (Int × Bool)} (h : entries.Perm d.breakpoints.toList) :
    (d.rows entries).Pairwise fun a b => a.index < b.index := by
  have hsorted : (d.rows entries).Pairwise fun a b => decide (a.index ≤ b.index) := by
    refine List.pairwise_mergeSort ?_ ?_ _
    · intro a b c hab hbc
      simp only [decide_eq_true_eq] at hab hbc ⊢
      omega
    · intro a b
      simp only [Bool.or_eq_true, decide_eq_true_eq]
      omega
  have hkeys : d.breakpoints.toList.Pairwise fun a b => ¬compare a.1 b.1 = .eq :=
    Std.TreeMap.distinct_keys_toList
  have hperm :
      ((d.rows entries).map Breakpoint.index).Perm (d.breakpoints.toList.map Prod.fst) := by
    refine ((List.mergeSort_perm _ _).map Breakpoint.index).trans ?_
    rw [List.map_map]
    exact h.map Prod.fst
  have hnodup : ((d.rows entries).map Breakpoint.index).Nodup := by
    rw [hperm.nodup_iff, List.Nodup, List.pairwise_map]
    exact hkeys.imp fun hne heq => hne (by simp [heq])
  refine (hsorted.and (List.pairwise_map.mp hnodup)).imp ?_
  rintro a b ⟨hle, hne⟩
  rw [decide_eq_true_eq] at hle
  omega

theorem rows_eq_list {entries : List (Int × Bool)} (h : entries.Perm d.breakpoints.toList) :
    d.rows entries = d.list := by
  have hperm : (d.rows entries).Perm d.list :=
    ((List.mergeSort_perm _ _).trans (h.map _)).trans (List.mergeSort_perm _ _).symm
  refine hperm.eq_of_pairwise ?_ (pairwise_rows h) (pairwise_rows (List.Perm.refl _))
  intro a b _ _ hab hba
  exact absurd hba (Int.not_lt.mpr (Int.le_of_lt hab))

/-- The table gives its entries in order, so there is nothing to sort. -/
theorem list_eq_map (d : Debugger) :
    d.list = d.breakpoints.toList.map fun entry => d.row entry.1 entry.2 := by
  refine List.mergeSort_of_pairwise (List.pairwise_map.mpr ?_)
  refine Std.TreeMap.ordered_keys_toList.imp ?_
  intro a b hlt
  have hindex : a.1 < b.1 := Std.compare_eq_lt.mp hlt
  exact decide_eq_true (Int.le_of_lt hindex)

theorem exists_mem_list_iff {i : Int} : (∃ row ∈ d.list, row.index = i) ↔ i ∈ d.breakpoints := by
  rw [Std.TreeMap.mem_iff_isSome_getElem?]
  constructor
  · rintro ⟨row, hrow, rfl⟩
    rw [(mem_list_iff.mp hrow).1]
    rfl
  · intro hsome
    obtain ⟨active, hentry⟩ := Option.isSome_iff_exists.mp hsome
    exact ⟨⟨i, d.machine.program.standard.glyphAt i, active⟩, mem_list_iff.mpr ⟨hentry, rfl⟩, rfl⟩

/-! ### A session -/

/-- The change that was made, if this is a request for one that was not refused. -/
def made? : Request × Response → Option Edit
  | (.edit e, .edited none) => some e
  | _ => none

/-- The changes that were made in a session. -/
def made (requests : List Request) (responses : List Response) : List Edit :=
  (requests.zip responses).filterMap made?

theorem made_concat {requests : List Request} {responses : List Response} (request : Request)
    (response : Response) (h : responses.length = requests.length) :
    made (requests ++ [request]) (responses ++ [response])
      = made requests responses ++ (made? (request, response)).toList := by
  rw [made, List.zip_append h.symm, List.filterMap_append, made]
  cases hmade : made? (request, response) <;> simp [hmade]

/-- The table of a debugger of a program of some size shows the changes that were made. -/
structure Recorded (size : Nat) (changes : List Edit) (d : Debugger) : Prop where
  entries : ∀ i, d.breakpoints[i]? = Edit.standing changes i
  inside : ∀ i ∈ d.breakpoints, 0 ≤ i ∧ i < size

namespace Recorded

variable {size : Nat} {changes : List Edit}

theorem mem_iff (h : Recorded size changes d) (i : Int) :
    i ∈ d.breakpoints ↔ (Edit.standing changes i).isSome = true := by
  rw [Std.TreeMap.mem_iff_isSome_getElem?, h.entries]

/-- A change that is made is recorded. -/
theorem edit (h : Recorded size changes d) (hsize : d.machine.program.standard.size = size)
    (hedit : d.edit e = .ok d') : Recorded size (changes ++ [e]) d' := by
  have hmade : ¬e.Refused size (· ∈ d.breakpoints) := by
    rw [← hsize, ← exists_refusal_iff, hedit]
    simp
  refine ⟨?_, ?_⟩
  · intro i
    rw [getElem?_of_edit hedit, h.entries, Edit.standing_concat]
    rw [funext fun j => propext (h.mem_iff j)] at hmade
    exact hmade
  · intro i hi
    rw [Std.TreeMap.mem_iff_isSome_getElem?, getElem?_of_edit hedit] at hi
    by_cases hold : i ∈ d.breakpoints
    · exact h.inside i hold
    · -- Only setting a breakpoint lists an index that was not listed.
      rw [Std.TreeMap.getElem?_eq_none hold] at hi
      cases e with
      | set j =>
          have hj : j = i := by simpa [Edit.entry] using hi
          rw [Edit.Refused, not_or, hj] at hmade
          omega
      | enable j | disable j =>
          have hj : j = i := by simpa [Edit.entry] using hi
          exact absurd (hj ▸ hold) hmade
      | remove | clear => simp [Edit.entry] at hi

theorem respond (h : Recorded size changes d) (hsize : d.machine.program.standard.size = size)
    (request : Request) :
    Recorded size (changes ++ (made? (request, (d.respond request).2)).toList)
      (d.respond request).1 := by
  by_cases hedit : ∃ e, request = .edit e
  · obtain ⟨e, rfl⟩ := hedit
    cases hresult : d.edit e with
    | ok d' =>
        rw [respond_of_made hresult]
        exact h.edit hsize hresult
    | error refusal =>
        rw [respond_of_refusal hresult]
        simpa [made?] using h
  · push Not at hedit
    obtain ⟨k, machine, stepping, paused, -, hrespond⟩ := exists_respond_eq d hedit
    have hnone : made? (request, (d.respond request).2) = none := by
      cases request with
      | edit e => exact absurd rfl (hedit e)
      | _ => rfl
    rw [hnone, hrespond, Option.toList_none, List.append_nil]
    exact ⟨h.entries, h.inside⟩

end Recorded

section Start

variable (code : Bytes) (options : Options) (source : Source) (sink : Sink)
  (requests : List Request)

theorem size_session :
    (session { machine := start code options source sink } requests).1.machine.program.standard.size
      = code.length := by
  rw [(reached_session code options source sink requests).program]
  exact Program.size_image code .forward

/-- After any session the table shows the changes that were made in it. -/
theorem recorded_session :
    let s := session { machine := start code options source sink } requests
    Recorded code.length (made requests s.2) s.1 := by
  induction requests using List.reverseRecOn with
  | nil =>
      constructor
      · simp [session, made, Edit.standing, Edit.latest]
      · simp [session]
  | append_singleton requests request ih =>
      simp only [session_concat]
      rw [made_concat _ _ (length_session _ _)]
      exact ih.respond (size_session code options source sink requests) request

end Start

/--
**The list of breakpoints follows the changes.**  Take a machine from its start through any
requests, and have its breakpoints listed, whatever the machine is doing then.

The list is strictly ascending, and does not depend on the order in which the entries of the table
are visited to make it.  Each of its indices is one of the program, and is shown with the
byte that stands there in the program as written.  An index is listed if and only if, of the changes
that were made, the latest that set or removed it or cleared everything has set it.  A listed
breakpoint is enabled if and only if the latest that set, enabled or disabled it has not disabled
it.  One more change is refused if and only if it sets a breakpoint outside the program, or is for an
index that is not listed; and then it changes nothing at all.
-/
theorem breakpoints_follow_changes (code : Bytes) (options : Options) (source : Source)
    (sink : Sink) (requests : List Request) :
    let s := session { machine := start code options source sink } requests
    let rows := s.1.list
    let changes := made requests s.2
    (rows.Pairwise (fun a b => a.index < b.index) ∧
      ∀ entries, entries.Perm s.1.breakpoints.toList → s.1.rows entries = rows) ∧
    (∀ row ∈ rows, 0 ≤ row.index ∧ code[row.index.toNat]? = some row.glyph) ∧
    (∀ i, (∃ row ∈ rows, row.index = i) ↔
      Edit.latest (Edit.lists i) changes = some (.set i)) ∧
    (∀ row ∈ rows, row.active = true ↔
      Edit.latest (Edit.switches row.index) changes ≠ some (.disable row.index)) ∧
    ∀ e : Edit, ((∃ refusal, (s.1.respond (.edit e)).2 = .edited (some refusal)) ↔
        e.Refused code.length fun i => ∃ row ∈ rows, row.index = i) ∧
      ((∃ refusal, (s.1.respond (.edit e)).2 = .edited (some refusal)) →
        (s.1.respond (.edit e)).1 = s.1) := by
  intro s rows changes
  have h : Recorded code.length changes s.1 :=
    recorded_session code options source sink requests
  have hprogram := (reached_session code options source sink requests).program
  refine ⟨⟨pairwise_rows (List.Perm.refl _), fun _ => rows_eq_list⟩, ?_, ?_, ?_, ?_⟩
  · intro row hrow
    obtain ⟨hlo, hlt⟩ := h.inside row.index (exists_mem_list_iff.mp ⟨row, hrow, rfl⟩)
    refine ⟨hlo, ?_⟩
    rw [(mem_list_iff.mp hrow).2, hprogram]
    exact Program.getElem?_text (d := .forward) hlo hlt
  · intro i
    rw [exists_mem_list_iff, h.mem_iff, Edit.isSome_standing]
  · intro row hrow
    have hentry := (mem_list_iff.mp hrow).1
    rw [h.entries, Edit.standing] at hentry
    split at hentry
    · rw [← Option.some.inj hentry, decide_eq_true_eq]
    · cases hentry
  · intro e
    have hlisted : (fun i => ∃ row ∈ rows, row.index = i) = (· ∈ s.1.breakpoints) :=
      funext fun i => propext exists_mem_list_iff
    rw [hlisted, ← size_session code options source sink requests, ← exists_refusal_iff]
    cases hedit : s.1.edit e with
    | ok d' => simp [respond_of_made hedit]
    | error refusal => simp [respond_of_refusal hedit]

/-- A breakpoint that is set again is enabled again, and what is refused makes no difference. -/
example :
    let requests : List Request :=
      [.edit (.set 2), .edit (.set 0), .edit (.disable 0), .edit (.disable 2), .edit (.set 3),
        .step, .edit (.set 2), .edit (.enable 1)]
    (session { machine := start [0x7B, 0x52, 0x7D] {} {} {} } requests).1.list
      = [⟨0, 0x7B, false⟩, ⟨2, 0x7D, true⟩] := by
  intro requests
  rw [list_eq_map]
  decide +kernel

end TimeTape.Debugger
