/-
What a profile says of the executions that were recorded in it.

The executions are given as a list, each with its index and its byte.  A profile does not keep them
apart, but it has a row for every index that occurs, with the number of executions there and the
byte of the last of them.  These rows are listed by falling counts, and those of one count by rising
indices.  As no two rows have the same index, that order leaves nothing open: there is one list with
these rows in it, whatever order they were found in and however they were sorted.

Counts are words, so they are those of the list modulo the number of words.
-/
import TimeTape.Profile
import Mathlib.Data.List.Dedup
import Mathlib.Data.List.Induction

namespace TimeTape

/-- Whether a row comes before another: with the higher count, or with the lower index if the counts
are equal. -/
def HotSpot.Before (a b : HotSpot) : Prop :=
  b.count < a.count ∨ a.count = b.count ∧ a.index < b.index

namespace Profile

variable {p : Profile} {row : HotSpot} {i : Int} {executions : List (Int × UInt8)}

/-! ### Rows -/

theorem mem_rows : row ∈ p.rows ↔ p.tallies[row.index]? = some ⟨row.glyph, row.count⟩ := by
  rw [rows, (List.mergeSort_perm _ _).mem_iff, List.mem_map]
  constructor
  · rintro ⟨⟨i, t⟩, hmem, rfl⟩
    exact Std.TreeMap.mem_toList_iff_getElem?_eq_some.mp hmem
  · intro h
    exact ⟨(row.index, ⟨row.glyph, row.count⟩),
      Std.TreeMap.mem_toList_iff_getElem?_eq_some.mpr h, rfl⟩

/-- No two rows have the same index. -/
theorem nodup_index_rows (p : Profile) : (p.rows.map HotSpot.index).Nodup := by
  have hkeys : p.tallies.toList.Pairwise fun a b => ¬compare a.1 b.1 = .eq :=
    Std.TreeMap.distinct_keys_toList
  have hperm : (p.rows.map HotSpot.index).Perm (p.tallies.toList.map Prod.fst) := by
    refine ((List.mergeSort_perm _ _).map HotSpot.index).trans ?_
    rw [List.map_map]
    exact List.Perm.refl _
  rw [hperm.nodup_iff, List.Nodup, List.pairwise_map]
  exact hkeys.imp fun hne heq => hne (by simp [heq])

theorem busier_iff (a b : HotSpot) :
    busier a b = true ↔ b.count.toNat < a.count.toNat ∨
      a.count.toNat = b.count.toNat ∧ a.index ≤ b.index := by
  simp only [busier, UInt64.lt_iff_toNat_lt, ← UInt64.toNat_inj]
  split
  · simp only [decide_eq_true_eq]
    omega
  · simp only [decide_eq_true_eq]
    omega

/-- The rows are in order. -/
theorem pairwise_rows (p : Profile) : p.rows.Pairwise HotSpot.Before := by
  have hsorted : p.rows.Pairwise fun a b => busier a b := by
    refine List.pairwise_mergeSort ?_ ?_ _
    · intro a b c hab hbc
      rw [busier_iff] at hab hbc ⊢
      omega
    · intro a b
      rw [Bool.or_eq_true, busier_iff, busier_iff]
      omega
  have hdistinct : p.rows.Pairwise fun a b => a.index ≠ b.index :=
    List.pairwise_map.mp (nodup_index_rows p)
  refine (hsorted.and hdistinct).imp ?_
  rintro a b ⟨hbusier, hne⟩
  rw [busier_iff] at hbusier
  simp only [HotSpot.Before, UInt64.lt_iff_toNat_lt, ← UInt64.toNat_inj]
  omega

/-- Rows in this order are not in any other. -/
theorem not_before_of_before {a b : HotSpot} (h : a.Before b) : ¬b.Before a := by
  simp only [HotSpot.Before, UInt64.lt_iff_toNat_lt, ← UInt64.toNat_inj] at h ⊢
  omega

/-- **There is only one list of these rows in order.** -/
theorem eq_rows_iff {rows : List HotSpot} :
    rows = p.rows ↔ rows.Pairwise HotSpot.Before ∧ ∀ row, row ∈ rows ↔ row ∈ p.rows := by
  constructor
  · rintro rfl
    exact ⟨pairwise_rows p, fun row => Iff.rfl⟩
  · rintro ⟨hordered, hmem⟩
    have hnodup : ∀ {l : List HotSpot}, l.Pairwise HotSpot.Before → l.Nodup := by
      intro l hl
      refine hl.imp ?_
      rintro a b hab rfl
      exact not_before_of_before hab hab
    have hperm : rows.Perm p.rows :=
      (List.perm_ext_iff_of_nodup (hnodup hordered) (hnodup (pairwise_rows p))).mpr hmem
    refine hperm.eq_of_pairwise ?_ hordered (pairwise_rows p)
    intro a b _ _ hab hba
    exact absurd hba (not_before_of_before hab)

/-! ### What has been recorded -/

/-- The sum of the counts of some rows. -/
def countSum : List HotSpot → Nat
  | [] => 0
  | row :: rest => row.count.toNat + countSum rest

/-- Counts that are words add up as the lengths do that they are words of. -/
theorem ofNat_countSum {α : Type} {rows : List HotSpot} {f : HotSpot → List α}
    (h : ∀ row ∈ rows, row.count = UInt64.ofNat (f row).length) :
    UInt64.ofNat (countSum rows) = UInt64.ofNat (rows.flatMap f).length := by
  induction rows with
  | nil => rfl
  | cons row rest ih =>
      obtain ⟨hrow, hrest⟩ := List.forall_mem_cons.mp h
      rw [countSum, List.flatMap_cons, List.length_append, UInt64.ofNat_add, UInt64.ofNat_add,
        ih hrest, hrow, UInt64.ofNat_toNat]

/-- And exactly so if the length of all is a word. -/
theorem countSum_eq {α : Type} {rows : List HotSpot} {f : HotSpot → List α}
    (h : ∀ row ∈ rows, row.count = UInt64.ofNat (f row).length)
    (hlt : (rows.flatMap f).length < UInt64.size) :
    countSum rows = (rows.flatMap f).length := by
  induction rows with
  | nil => rfl
  | cons row rest ih =>
      obtain ⟨hrow, hrest⟩ := List.forall_mem_cons.mp h
      rw [List.flatMap_cons, List.length_append] at hlt ⊢
      rw [countSum, hrow, UInt64.toNat_ofNat_of_lt' (by omega), ih hrest (by omega)]

section History

variable {α : Type} (index : α → Int) (glyph : α → UInt8) (history : List α)

/-- The profile in which a history of executions has been recorded. -/
def ofHistory : Profile :=
  history.foldl (fun p e => p.record (index e) (glyph e)) {}

/-- The executions of a history at an index. -/
def visits (i : Int) : List α :=
  history.filter fun e => index e = i

theorem ofHistory_concat (e : α) :
    ofHistory index glyph (history ++ [e])
      = (ofHistory index glyph history).record (index e) (glyph e) := by
  simp [ofHistory]

theorem total_ofHistory : (ofHistory index glyph history).total = UInt64.ofNat history.length := by
  induction history using List.reverseRecOn with
  | nil => rfl
  | append_singleton history e ih =>
      rw [ofHistory_concat, record, ih, List.length_append, UInt64.ofNat_add]
      rfl

theorem redirects_ofHistory : (ofHistory index glyph history).redirects = 0 := by
  induction history using List.reverseRecOn with
  | nil => rfl
  | append_singleton history e ih =>
      rw [ofHistory_concat]
      exact ih

/-- An index has a tally if it was visited: the number of visits, and the byte of the last one. -/
theorem getElem?_tallies_ofHistory (i : Int) :
    (ofHistory index glyph history).tallies[i]? =
      (visits index history i).getLast?.map fun last =>
        ⟨glyph last, UInt64.ofNat (visits index history i).length⟩ := by
  induction history using List.reverseRecOn with
  | nil => simp [ofHistory, visits]
  | append_singleton history e ih =>
      rw [ofHistory_concat, record, Std.TreeMap.getElem?_insert]
      by_cases he : index e = i
      · subst he
        have hvisits : visits index (history ++ [e]) (index e)
            = visits index history (index e) ++ [e] := by
          simp [visits]
        rw [if_pos (by simp), hvisits, ih]
        cases hlast : (visits index history (index e)).getLast? with
        | none =>
            have hnone : visits index history (index e) = [] := List.getLast?_eq_none_iff.mp hlast
            simp [hnone]
        | some last => simp [UInt64.ofNat_add]
      · have hvisits : visits index (history ++ [e]) i = visits index history i := by
          simp [visits, he]
        rw [if_neg (by simpa using he), hvisits, ih]

theorem mem_rows_ofHistory {row : HotSpot} :
    row ∈ (ofHistory index glyph history).rows ↔
      ∃ last, (visits index history row.index).getLast? = some last ∧ row.glyph = glyph last ∧
        row.count = UInt64.ofNat (visits index history row.index).length := by
  rw [mem_rows, getElem?_tallies_ofHistory]
  simp only [Option.map_eq_some_iff, Tally.mk.injEq]
  constructor
  · rintro ⟨last, hlast, hglyph, hcount⟩
    exact ⟨last, hlast, hglyph.symm, hcount.symm⟩
  · rintro ⟨last, hlast, hglyph, hcount⟩
    exact ⟨last, hlast, hglyph.symm, hcount.symm⟩

/-- The visits to all indices are the whole history, though not in its order. -/
theorem perm_visits {rows : List HotSpot} (hnodup : (rows.map HotSpot.index).Nodup)
    (hall : ∀ e ∈ history, index e ∈ rows.map HotSpot.index) :
    (rows.flatMap fun row => visits index history row.index).Perm history := by
  induction rows generalizing history with
  | nil =>
      cases history with
      | nil => exact .refl _
      | cons e rest => exact absurd (hall e List.mem_cons_self) List.not_mem_nil
  | cons row rest ih =>
      rw [List.map_cons, List.nodup_cons] at hnodup
      -- The visits to the other rows are those in what the first row leaves of the history.
      let left := history.filter fun e => !decide (index e = row.index)
      have hleft : ∀ other ∈ rest,
          visits index history other.index = visits index left other.index := by
        intro other hother
        have hne : other.index ≠ row.index := by
          intro heq
          exact hnodup.1 (heq ▸ List.mem_map_of_mem hother)
        rw [visits, visits, List.filter_filter]
        refine List.filter_congr fun e _ => ?_
        by_cases he : index e = other.index <;> simp [he, hne]
      have hcovered : ∀ e ∈ left, index e ∈ rest.map HotSpot.index := by
        intro e he
        obtain ⟨hmem, hne⟩ := List.mem_filter.mp he
        have hindex := hall e hmem
        rw [List.map_cons, List.mem_cons] at hindex
        exact hindex.resolve_left (by simpa using hne)
      rw [List.flatMap_cons, List.flatMap_congr hleft]
      exact ((ih left hnodup.2 hcovered).append_left _).trans (List.filter_append_perm _ history)

/-- An index is in the rows exactly if it was visited. -/
theorem mem_index_rows_ofHistory {i : Int} :
    i ∈ (ofHistory index glyph history).rows.map HotSpot.index ↔ ∃ e ∈ history, index e = i := by
  rw [List.mem_map]
  constructor
  · rintro ⟨row, hrow, rfl⟩
    obtain ⟨last, hlast, -⟩ := (mem_rows_ofHistory index glyph history).mp hrow
    have hmem := List.mem_filter.mp (List.mem_of_getLast? hlast)
    exact ⟨last, hmem.1, by simpa using hmem.2⟩
  · rintro ⟨e, he, rfl⟩
    have hvisit : e ∈ visits index history (index e) := List.mem_filter.mpr ⟨he, by simp⟩
    obtain ⟨last, hlast⟩ :=
      Option.isSome_iff_exists.mp (List.getLast?_isSome.mpr (List.ne_nil_of_mem hvisit))
    exact ⟨⟨index e, glyph last, UInt64.ofNat (visits index history (index e)).length⟩,
      (mem_rows_ofHistory index glyph history).mpr ⟨last, hlast, rfl, rfl⟩, rfl⟩

/-- There are as many rows as indices that were visited. -/
theorem length_rows_ofHistory :
    (ofHistory index glyph history).rows.length = (history.map index).dedup.length := by
  have hperm : ((ofHistory index glyph history).rows.map HotSpot.index).Perm
      (history.map index).dedup := by
    rw [List.perm_ext_iff_of_nodup (nodup_index_rows _) (List.nodup_dedup _)]
    intro i
    rw [mem_index_rows_ofHistory, List.mem_dedup, List.mem_map]
  rw [← hperm.length_eq, List.length_map]

theorem count_of_mem_rows {row : HotSpot} (h : row ∈ (ofHistory index glyph history).rows) :
    row.count = UInt64.ofNat (visits index history row.index).length := by
  obtain ⟨-, -, -, hcount⟩ := (mem_rows_ofHistory index glyph history).mp h
  exact hcount

/-- The visits that the rows count are as many as there are executions. -/
theorem length_flatMap_visits :
    ((ofHistory index glyph history).rows.flatMap fun row =>
      visits index history row.index).length = history.length := by
  refine (perm_visits index history (nodup_index_rows _) ?_).length_eq
  intro e he
  exact (mem_index_rows_ofHistory index glyph history).mpr ⟨e, he, rfl⟩

end History

/-! ### The busiest rows -/

theorem busiest_natCast (p : Profile) (k : Nat) : p.busiest k = p.rows.take k := by
  rw [busiest, if_neg (by omega), Int.toNat_natCast]

end Profile

end TimeTape
