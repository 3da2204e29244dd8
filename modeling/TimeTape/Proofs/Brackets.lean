/-
What a pairing records.

`scan` reads a program once and sorts its brackets: an opener is either still waiting or
part of a pair, a closer is either a stray or part of a pair.  `Scan.Complete` says that this
sorting loses no bracket and files none twice, and it is kept by every byte that is read.

The tables of a pairing are built from the scan by insertion, where a later entry would
replace an earlier one.  Since no bracket is filed twice nothing is ever replaced, and looking
a bracket up is the same as finding it in the scan.  What the engine needs to know of its
brackets follows from that: a bracket is always on file, the partner it is filed with stands
in the program, and the brackets without a partner are exactly the unmatched ones.
-/
import TimeTape.Brackets
import Mathlib.Data.List.Induction
import Mathlib.Data.List.Nodup

namespace TimeTape

/-- An index is never the number that stands for no partner. -/
theorem Partner.ofCode_ofNat (n : Nat) : Partner.ofCode (Int.ofNat n) = some (Int.ofNat n) := by
  rw [Partner.ofCode, if_neg]
  intro h
  cases h

namespace Pairing

/-! ### Reading a byte -/

namespace Scan

theorem index_next (s : Scan) (b : UInt8) : (s.next b).index = s.index + 1 := by
  unfold Scan.next
  split
  · rfl
  · split
    · split <;> rfl
    · rfl

theorem index_foldl (l : Bytes) : ∀ s : Scan, (l.foldl Scan.next s).index = s.index + l.length := by
  induction l with
  | nil => intro s; rfl
  | cons b rest ih =>
      intro s
      rw [List.foldl_cons, ih, index_next, List.length_cons]
      omega

/-- A pair once found is never given up. -/
theorem mem_pairs_foldl {p : Nat × Nat} (l : Bytes) :
    ∀ s : Scan, p ∈ s.pairs → p ∈ (l.foldl Scan.next s).pairs := by
  induction l with
  | nil => intro s h; exact h
  | cons b rest ih =>
      intro s h
      refine ih _ ?_
      unfold Scan.next
      split
      · exact h
      · split
        · split
          · exact h
          · exact List.mem_cons_of_mem _ h
        · exact h

theorem next_opener (s : Scan) :
    s.next Instruction.opener.glyph
      = { s with index := s.index + 1, waiting := s.index :: s.waiting } := by
  simp [Scan.next]

theorem next_closer {s : Scan} {o : Nat} {below : List Nat} (h : s.waiting = o :: below) :
    s.next Instruction.closer.glyph
      = { s with index := s.index + 1, waiting := below, pairs := (o, s.index) :: s.pairs } := by
  rw [Scan.next, if_neg (by decide), if_pos rfl, h]

theorem next_stray {s : Scan} (h : s.waiting = []) :
    s.next Instruction.closer.glyph
      = { s with index := s.index + 1, strays := s.index :: s.strays } := by
  rw [Scan.next, if_neg (by decide), if_pos rfl, h]

theorem next_other (s : Scan) {b : UInt8} (ho : b ≠ Instruction.opener.glyph)
    (hc : b ≠ Instruction.closer.glyph) : s.next b = { s with index := s.index + 1 } := by
  rw [Scan.next, if_neg ho, if_neg hc]

end Scan

/-! ### The scan loses no bracket -/

theorem getElem?_concat_eq_some {α : Type} (l : List α) (a x : α) (i : Nat) :
    (l ++ [a])[i]? = some x ↔ l[i]? = some x ∨ (i = l.length ∧ a = x) := by
  rcases Nat.lt_trichotomy i l.length with h | h | h
  · simp [List.getElem?_append_left h, Nat.ne_of_lt h]
  · simp [h]
  · simp [List.getElem?_append_right (Nat.le_of_lt h), Nat.ne_of_gt h,
      List.getElem?_eq_none (Nat.le_of_lt h), List.getElem?_singleton]
    omega

/-- A scan that has every bracket of the program it has read on exactly one list. -/
structure Scan.Complete (code : Bytes) (s : Scan) : Prop where
  /-- The next byte is the one after the program read so far. -/
  index : s.index = code.length
  /-- An opener waits or is paired. -/
  openers : ∀ i, i ∈ s.waiting ++ s.pairs.map Prod.fst ↔ code[i]? = some Instruction.opener.glyph
  /-- A closer is a stray or is paired. -/
  closers : ∀ i, i ∈ s.strays ++ s.pairs.map Prod.snd ↔ code[i]? = some Instruction.closer.glyph
  openersOnce : (s.waiting ++ s.pairs.map Prod.fst).Nodup
  closersOnce : (s.strays ++ s.pairs.map Prod.snd).Nodup

namespace Scan.Complete

variable {code : Bytes} {s : Scan}

theorem empty : Scan.Complete [] {} := by
  constructor <;> simp

/-- The next index is on neither list yet. -/
theorem index_fresh (h : Scan.Complete code s) :
    s.index ∉ s.waiting ++ s.pairs.map Prod.fst ∧ s.index ∉ s.strays ++ s.pairs.map Prod.snd := by
  rw [h.openers, h.closers, h.index]
  simp

theorem next_opener (h : Scan.Complete code s) :
    Scan.Complete (code ++ [Instruction.opener.glyph]) (s.next Instruction.opener.glyph) := by
  have hfresh := h.index_fresh.1
  constructor
  · simp [Scan.next, h.index]
  · intro i
    rw [getElem?_concat_eq_some, ← h.openers i]
    simp [Scan.next, h.index]
    tauto
  · intro i
    rw [getElem?_concat_eq_some, ← h.closers i]
    simp [Scan.next, Instruction.glyph]
  · simpa [Scan.next] using ⟨by simpa using hfresh, h.openersOnce⟩
  · simpa [Scan.next] using h.closersOnce

theorem next_closer (h : Scan.Complete code s) :
    Scan.Complete (code ++ [Instruction.closer.glyph]) (s.next Instruction.closer.glyph) := by
  have hfresh := h.index_fresh.2
  cases hw : s.waiting with
  | nil =>
      rw [Scan.next_stray hw]
      constructor
      · simp [h.index]
      · intro i
        rw [getElem?_concat_eq_some, ← h.openers i]
        simp [Instruction.glyph]
      · intro i
        rw [getElem?_concat_eq_some, ← h.closers i]
        simp [h.index]
        tauto
      · exact h.openersOnce
      · simpa using ⟨by simpa using hfresh, h.closersOnce⟩
  | cons o below =>
      -- The innermost opener changes lists, so the openers are the same up to order.
      have hperm : (below ++ o :: s.pairs.map Prod.fst).Perm
          (s.waiting ++ s.pairs.map Prod.fst) := by
        rw [hw]
        exact List.perm_middle
      have hperm' : (s.strays ++ s.index :: s.pairs.map Prod.snd).Perm
          (s.index :: (s.strays ++ s.pairs.map Prod.snd)) := List.perm_middle
      rw [Scan.next_closer hw]
      constructor
      · simp [h.index]
      · intro i
        rw [getElem?_concat_eq_some, ← h.openers i, ← hperm.mem_iff]
        simp [Instruction.glyph]
      · intro i
        rw [getElem?_concat_eq_some, ← h.closers i]
        simp [h.index]
        tauto
      · simpa using hperm.nodup_iff.mpr h.openersOnce
      · simpa using hperm'.nodup_iff.mpr (List.nodup_cons.mpr ⟨hfresh, h.closersOnce⟩)

/-- Every byte keeps a scan complete. -/
theorem next (h : Scan.Complete code s) (b : UInt8) : Scan.Complete (code ++ [b]) (s.next b) := by
  by_cases ho : b = Instruction.opener.glyph
  · subst ho
    exact h.next_opener
  by_cases hc : b = Instruction.closer.glyph
  · subst hc
    exact h.next_closer
  rw [Scan.next_other s ho hc]
  constructor
  · simp [h.index]
  · intro i
    rw [getElem?_concat_eq_some, ← h.openers i]
    simp [ho]
  · intro i
    rw [getElem?_concat_eq_some, ← h.closers i]
    simp [hc]
  · exact h.openersOnce
  · exact h.closersOnce

end Scan.Complete

theorem scan_concat (code : Bytes) (b : UInt8) : scan (code ++ [b]) = (scan code).next b := by
  simp [scan]

/-- The scan of a program has every bracket of it on exactly one list. -/
theorem scan_complete (code : Bytes) : Scan.Complete code (scan code) := by
  induction code using List.reverseRecOn with
  | nil => exact Scan.Complete.empty
  | append_singleton code b ih =>
      rw [scan_concat]
      exact ih.next b

/-- Two brackets are paired if what stands between them leaves the waiting openers alone. -/
theorem mem_pairs_of_waiting {body : Bytes}
    (hbody : ∀ s : Scan, (body.foldl Scan.next s).waiting = s.waiting) (front back : Bytes) :
    (front.length, front.length + 1 + body.length) ∈
      (scan (front ++ Instruction.opener.glyph ::
        (body ++ Instruction.closer.glyph :: back))).pairs := by
  have hindex : (scan front).index = front.length := (scan_complete front).index
  rw [scan, List.foldl_append, List.foldl_cons, List.foldl_append, List.foldl_cons]
  show _ ∈ (back.foldl Scan.next ((body.foldl Scan.next
    ((scan front).next Instruction.opener.glyph)).next Instruction.closer.glyph)).pairs
  refine Scan.mem_pairs_foldl _ _ ?_
  rw [Scan.next_opener, hindex]
  have hwaiting := hbody
    { scan front with index := front.length + 1, waiting := front.length :: (scan front).waiting }
  rw [Scan.next_closer hwaiting, Scan.index_foldl]
  exact List.mem_cons_self

/-! ### Filing a partner replaces nothing -/

/-- Looking up a table of openers finds the entry that was filed. -/
theorem getElem?_ofList_iff {entries : List (Int × Partner)}
    (hdistinct : (entries.map Prod.fst).Nodup) (i : Int) (p : Partner) :
    (Std.TreeMap.ofList entries)[i]? = some p ↔ (i, p) ∈ entries := by
  have hpairs : entries.Pairwise fun a b => ¬compare a.1 b.1 = .eq := by
    rw [List.Nodup, List.pairwise_map] at hdistinct
    exact hdistinct.imp fun h hc => h (by simpa using hc)
  constructor
  · intro h
    by_cases hmem : i ∈ entries.map Prod.fst
    · obtain ⟨e, he, rfl⟩ := List.mem_map.mp hmem
      rw [Std.TreeMap.getElem?_ofList_of_mem (by simp) hpairs he] at h
      rwa [← Option.some.inj h]
    · rw [Std.TreeMap.getElem?_ofList_of_contains_eq_false (by simpa using hmem)] at h
      exact absurd h (by simp)
  · intro h
    exact Std.TreeMap.getElem?_ofList_of_mem (by simp) hpairs h

/-- No two entries are filed with the same partner. -/
def PartnersOnce (entries : List (Int × Partner)) : Prop :=
  entries.Pairwise fun a b => ∀ c, a.2 = some c → b.2 ≠ some c

theorem getElem?_foldl_partner {entries : List (Int × Partner)} (honce : PartnersOnce entries) :
    ∀ (table : Std.TreeMap Int Partner) (c : Int) (p : Partner),
      (entries.foldl (fun t e => e.2.elim t (t.insert · (Partner.ofCode e.1))) table)[c]? = some p ↔
        (∃ o, (o, some c) ∈ entries ∧ p = Partner.ofCode o) ∨
          (table[c]? = some p ∧ ∀ o, (o, some c) ∉ entries) := by
  induction entries with
  | nil =>
      intro table c p
      simp
  | cons e rest ih =>
      intro table c p
      obtain ⟨hhead, hrest⟩ := List.pairwise_cons.mp honce
      rw [List.foldl_cons, ih hrest]
      obtain ⟨o, q⟩ := e
      cases q with
      | none => simp
      | some d =>
          -- The partner just filed is not filed again by the rest.
          have hnot : ∀ o', (o', some d) ∉ rest := fun o' hmem => hhead _ hmem d rfl rfl
          by_cases hcd : c = d
          · subst hcd
            simp [hnot, eq_comm]
          · have hdc : d ≠ c := fun hc => hcd hc.symm
            simp [Std.TreeMap.getElem?_insert, hdc, hcd]

/-- Turning a table around files every partner under itself. -/
theorem getElem?_invert {entries : List (Int × Partner)} (honce : PartnersOnce entries)
    (c : Int) (p : Partner) :
    (invert entries)[c]? = some p ↔ ∃ o, (o, some c) ∈ entries ∧ p = Partner.ofCode o := by
  rw [invert, getElem?_foldl_partner honce]
  simp

theorem getElem?_foldl_strays (strays : List Nat) :
    ∀ (table : Std.TreeMap Int Partner) (i : Int),
      (strays.foldl (fun t c => t.insert (Int.ofNat c) none) table)[i]? =
        if ∃ c ∈ strays, Int.ofNat c = i then some none else table[i]? := by
  induction strays with
  | nil =>
      intro table i
      simp
  | cons c rest ih =>
      intro table i
      rw [List.foldl_cons, ih, Std.TreeMap.getElem?_insert]
      by_cases hrest : ∃ c ∈ rest, Int.ofNat c = i
      · have hcons : ∃ d ∈ c :: rest, Int.ofNat d = i := by
          obtain ⟨d, hd, hdi⟩ := hrest
          exact ⟨d, by simp [hd], hdi⟩
        rw [if_pos hrest, if_pos hcons]
      · rw [if_neg hrest]
        by_cases hc : Int.ofNat c = i
        · subst hc
          simp
        · have hcons : ¬∃ d ∈ c :: rest, Int.ofNat d = i := by
            rintro ⟨d, hd, hdi⟩
            rcases List.mem_cons.mp hd with rfl | hd'
            · exact hc hdi
            · exact hrest ⟨d, hd', hdi⟩
          rw [if_neg hcons, if_neg (by simpa using hc)]

/-! ### Looking a bracket up -/

theorem openers_distinct (code : Bytes) : ((scan code).openers.map Prod.fst).Nodup := by
  have hkeys : (scan code).openers.map Prod.fst
      = ((scan code).pairs.map Prod.fst ++ (scan code).waiting).map Int.ofNat := by
    simp [Scan.openers, Function.comp_def]
  rw [hkeys]
  refine List.Nodup.map (fun a b h => Int.ofNat.inj h) ?_
  exact List.perm_append_comm.nodup_iff.mp (scan_complete code).openersOnce

theorem mem_openers_some {s : Scan} {i c : Int} :
    (i, some c) ∈ s.openers ↔ ∃ p ∈ s.pairs, Int.ofNat p.1 = i ∧ Int.ofNat p.2 = c := by
  simp [Scan.openers]

theorem mem_openers_none {s : Scan} {i : Int} :
    (i, none) ∈ s.openers ↔ ∃ o ∈ s.waiting, Int.ofNat o = i := by
  simp [Scan.openers]

theorem forward_eq_some_iff (code : Bytes) (i : Int) (p : Partner) :
    (ofBytes code).forward[i]? = some p ↔ (i, p) ∈ (scan code).openers :=
  getElem?_ofList_iff (openers_distinct code) i p

/-- A partner determines the opener it belongs to. -/
theorem fst_eq_of_snd_eq (code : Bytes) {p q : Nat × Nat} (hp : p ∈ (scan code).pairs)
    (hq : q ∈ (scan code).pairs) (h : p.2 = q.2) : p = q := by
  have honce := (List.nodup_append.mp (scan_complete code).closersOnce).2.1
  exact List.inj_on_of_nodup_map honce hp hq h

/-- A table in which no two brackets have the same partner lists no partner twice. -/
theorem partnersOnce_toList {table : Std.TreeMap Int Partner}
    (h : ∀ o o' c : Int, table[o]? = some (some c) → table[o']? = some (some c) → o = o') :
    PartnersOnce table.toList := by
  have hpairs : table.toList.Pairwise fun a b => ¬compare a.1 b.1 = .eq :=
    Std.TreeMap.distinct_keys_toList
  refine hpairs.imp_of_mem ?_
  intro a b ha hb hne c hac hbc
  obtain ⟨o, _⟩ := a
  obtain ⟨o', _⟩ := b
  subst hac hbc
  rw [Std.TreeMap.mem_toList_iff_getElem?_eq_some] at ha hb
  exact hne (by simp [h o o' c ha hb])

theorem eq_of_forward_eq (code : Bytes) {o o' c : Int}
    (h : (ofBytes code).forward[o]? = some (some c))
    (h' : (ofBytes code).forward[o']? = some (some c)) : o = o' := by
  rw [forward_eq_some_iff, mem_openers_some] at h h'
  obtain ⟨p, hp, rfl, hpc⟩ := h
  obtain ⟨q, hq, rfl, hqc⟩ := h'
  rw [fst_eq_of_snd_eq code hp hq (Int.ofNat.inj (hpc.trans hqc.symm))]

theorem forward_partners_once (code : Bytes) : PartnersOnce (ofBytes code).forward.toList :=
  partnersOnce_toList fun _ _ _ => eq_of_forward_eq code

theorem backward_eq_some_iff (code : Bytes) (j : Int) (p : Partner) :
    (ofBytes code).backward[j]? = some p ↔
      if ∃ c ∈ (scan code).strays, Int.ofNat c = j then p = none
      else ∃ o, (o, some j) ∈ (scan code).openers ∧ p = Partner.ofCode o := by
  have hlookup : (ofBytes code).backward[j]? =
      if ∃ c ∈ (scan code).strays, Int.ofNat c = j then some none
      else (invert (ofBytes code).forward.toList)[j]? :=
    getElem?_foldl_strays _ _ j
  rw [hlookup]
  split
  · simp [eq_comm]
  · rw [getElem?_invert (forward_partners_once code)]
    simp only [Std.TreeMap.mem_toList_iff_getElem?_eq_some, forward_eq_some_iff]

/-- An opener is filed with a partner exactly when the scan has paired it. -/
theorem forward_eq_partner_iff {code : Bytes} {i j : Int} :
    (ofBytes code).forward[i]? = some (some j) ↔
      ∃ p ∈ (scan code).pairs, Int.ofNat p.1 = i ∧ Int.ofNat p.2 = j := by
  rw [forward_eq_some_iff, mem_openers_some]

/-- An opener is filed without a partner exactly when it waits to the end. -/
theorem forward_eq_none_iff {code : Bytes} {i : Int} :
    (ofBytes code).forward[i]? = some none ↔ ∃ o ∈ (scan code).waiting, Int.ofNat o = i := by
  rw [forward_eq_some_iff, mem_openers_none]

/-- A stray closer is not paired. -/
theorem not_stray_of_pair {code : Bytes} {p : Nat × Nat} (hp : p ∈ (scan code).pairs) :
    p.2 ∉ (scan code).strays := by
  have hdisj := (List.nodup_append.mp (scan_complete code).closersOnce).2.2
  intro hc
  exact hdisj _ hc _ (List.mem_map_of_mem hp) rfl

/-- A closer is filed with a partner exactly when the scan has paired it. -/
theorem backward_eq_partner_iff {code : Bytes} {i j : Int} :
    (ofBytes code).backward[j]? = some (some i) ↔
      ∃ p ∈ (scan code).pairs, Int.ofNat p.1 = i ∧ Int.ofNat p.2 = j := by
  rw [backward_eq_some_iff]
  constructor
  · intro h
    split at h
    · exact absurd h (by simp)
    · obtain ⟨o, ho, hi⟩ := h
      obtain ⟨p, hp, rfl, hpj⟩ := mem_openers_some.mp ho
      rw [Partner.ofCode_ofNat] at hi
      exact ⟨p, hp, (Option.some.inj hi).symm, hpj⟩
  · rintro ⟨p, hp, rfl, rfl⟩
    have hstray : ¬∃ c ∈ (scan code).strays, Int.ofNat c = Int.ofNat p.2 := by
      rintro ⟨c, hc, hcp⟩
      exact not_stray_of_pair hp (Int.ofNat.inj hcp ▸ hc)
    rw [if_neg hstray]
    exact ⟨Int.ofNat p.1, mem_openers_some.mpr ⟨p, hp, rfl, rfl⟩, (Partner.ofCode_ofNat p.1).symm⟩

/-- A closer is filed without a partner exactly when it is a stray. -/
theorem backward_eq_none_iff {code : Bytes} {j : Int} :
    (ofBytes code).backward[j]? = some none ↔ ∃ c ∈ (scan code).strays, Int.ofNat c = j := by
  rw [backward_eq_some_iff]
  split
  · simpa using ‹_›
  · constructor
    · rintro ⟨o, ho, hnone⟩
      obtain ⟨p, -, rfl, -⟩ := mem_openers_some.mp ho
      rw [Partner.ofCode_ofNat] at hnone
      exact absurd hnone (by simp)
    · intro h
      contradiction

/-! ### What the engine relies on -/

/-- Every opener is on file. -/
theorem forward_of_opener {code : Bytes} {i : Nat}
    (h : code[i]? = some Instruction.opener.glyph) :
    ∃ p, (ofBytes code).forward[(i : Int)]? = some p := by
  rcases List.mem_append.mp (((scan_complete code).openers i).mpr h) with hw | hp
  · exact ⟨none, forward_eq_none_iff.mpr ⟨i, hw, rfl⟩⟩
  · obtain ⟨p, hpair, rfl⟩ := List.mem_map.mp hp
    exact ⟨some (Int.ofNat p.2), forward_eq_partner_iff.mpr ⟨p, hpair, rfl, rfl⟩⟩

/-- Every closer is on file. -/
theorem backward_of_closer {code : Bytes} {i : Nat}
    (h : code[i]? = some Instruction.closer.glyph) :
    ∃ p, (ofBytes code).backward[(i : Int)]? = some p := by
  rcases List.mem_append.mp (((scan_complete code).closers i).mpr h) with hs | hp
  · exact ⟨none, backward_eq_none_iff.mpr ⟨i, hs, rfl⟩⟩
  · obtain ⟨p, hpair, rfl⟩ := List.mem_map.mp hp
    exact ⟨some (Int.ofNat p.1), backward_eq_partner_iff.mpr ⟨p, hpair, rfl, rfl⟩⟩

/-- Both brackets of a pair stand in the program. -/
theorem pair_lt {code : Bytes} {p : Nat × Nat} (hp : p ∈ (scan code).pairs) :
    p.1 < code.length ∧ p.2 < code.length := by
  have ho := ((scan_complete code).openers p.1).mp
    (List.mem_append_right _ (List.mem_map_of_mem hp))
  have hc := ((scan_complete code).closers p.2).mp
    (List.mem_append_right _ (List.mem_map_of_mem hp))
  exact ⟨(List.getElem?_eq_some_iff.mp ho).1, (List.getElem?_eq_some_iff.mp hc).1⟩

/-- The partner of an opener stands in the program. -/
theorem forward_partner_inside {code : Bytes} {i j : Int}
    (h : (ofBytes code).forward[i]? = some (some j)) : 0 ≤ j ∧ j < code.length := by
  obtain ⟨p, hp, -, rfl⟩ := forward_eq_partner_iff.mp h
  have hlt := (pair_lt hp).2
  simpa using hlt

/-- The partner of a closer stands in the program. -/
theorem backward_partner_inside {code : Bytes} {i j : Int}
    (h : (ofBytes code).backward[j]? = some (some i)) : 0 ≤ i ∧ i < code.length := by
  obtain ⟨p, hp, rfl, -⟩ := backward_eq_partner_iff.mp h
  have hlt := (pair_lt hp).1
  simpa using hlt

/-- The brackets that a table lists as loose are filed in it without a partner. -/
theorem mem_loose_iff {table : Std.TreeMap Int Partner} {i : Int} :
    i ∈ (table.toList.filter fun e => e.2.isNone).map Prod.fst ↔ table[i]? = some none := by
  rw [← Std.TreeMap.mem_toList_iff_getElem?_eq_some]
  simp only [List.mem_map, List.mem_filter, Option.isNone_iff_eq_none]
  constructor
  · rintro ⟨⟨k, p⟩, ⟨hmem, rfl⟩, rfl⟩
    exact hmem
  · intro hmem
    exact ⟨(i, none), ⟨hmem, rfl⟩, rfl⟩

/-- The unmatched brackets are those on file without a partner. -/
theorem mem_unmatched {t : Pairing} {i : Int} :
    i ∈ t.unmatched ↔ t.forward[i]? = some none ∨ t.backward[i]? = some none := by
  rw [unmatched, (List.mergeSort_perm _ _).mem_iff, List.mem_append, mem_loose_iff, mem_loose_iff]

/-- An unmatched bracket stands in the program. -/
theorem unmatched_inside {code : Bytes} {i : Int} (h : i ∈ (ofBytes code).unmatched) :
    0 ≤ i ∧ i < code.length := by
  rcases mem_unmatched.mp h with hf | hb
  · obtain ⟨o, ho, rfl⟩ := forward_eq_none_iff.mp hf
    have hglyph := ((scan_complete code).openers o).mp (List.mem_append_left _ ho)
    have hlt := (List.getElem?_eq_some_iff.mp hglyph).1
    simpa using hlt
  · obtain ⟨c, hc, rfl⟩ := backward_eq_none_iff.mp hb
    have hglyph := ((scan_complete code).closers c).mp (List.mem_append_left _ hc)
    have hlt := (List.getElem?_eq_some_iff.mp hglyph).1
    simpa using hlt

end Pairing

end TimeTape
