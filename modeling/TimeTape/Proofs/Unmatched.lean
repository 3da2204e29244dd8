/-
How many brackets have no partner, and in which order they stand.

A closer goes astray only while nothing waits, so every stray stands before every opener that waits
to the end.  In order, the unmatched brackets are the strays and then the waiting openers.

How many strays there are can be said without a stack.  The excess of closers over openers is the
number of strays less the number of openers that wait.  A stray is met when nothing waits, and so
takes the excess to a height that it has not had before.  Mirroring exchanges openers and closers,
so the strays of a program are as many as its mirror image is deep.

For a program whose brackets are all paired this settles what its mirror image leaves unmatched:
as many strays as the program is deep, and as many waiting openers, since there are as many openers
as closers in all.
-/
import TimeTape.Proofs.Partners
import Mathlib.Data.List.Count
import Mathlib.Data.List.Induction
import Mathlib.Data.List.Sort
import Mathlib.Order.Bounds.Basic

namespace TimeTape

/-! ### Counting brackets in the mirror image -/

theorem mirror_append (a b : Bytes) : mirror (a ++ b) = mirror a ++ mirror b :=
  List.map_append

theorem count_mirror (code : Bytes) (g : UInt8) :
    (mirror code).count (mirrorGlyph g) = code.count g := by
  refine List.count_map_of_injective code mirrorGlyph ?_ g
  intro a b hab
  rw [← mirrorGlyph_mirrorGlyph a, hab, mirrorGlyph_mirrorGlyph]

theorem openerCount_mirror (code : Bytes) : openerCount (mirror code) = closerCount code :=
  count_mirror code Instruction.closer.glyph

theorem closerCount_mirror (code : Bytes) : closerCount (mirror code) = openerCount code :=
  count_mirror code Instruction.opener.glyph

/-! ### Depth -/

/--
The depth to which the loops of a program are nested: the greatest excess of openers over closers
in a front part of it.
-/
def depth (code : Bytes) : Nat :=
  (List.range (code.length + 1)).foldl
    (fun most n => max most (openerCount (code.take n) - closerCount (code.take n))) 0

theorem depth_concat (code : Bytes) (b : UInt8) :
    depth (code ++ [b])
      = max (depth code) (openerCount (code ++ [b]) - closerCount (code ++ [b])) := by
  have hlength : (code ++ [b]).length = code.length + 1 := by simp
  have hfront : ∀ n ∈ List.range (code.length + 1), (code ++ [b]).take n = code.take n := by
    intro n hn
    exact List.take_append_of_le_length (Nat.le_of_lt_succ (List.mem_range.mp hn))
  rw [depth, hlength, List.range_succ, List.foldl_append, List.foldl_cons, List.foldl_nil,
    ← hlength, List.take_length, hlength, depth]
  congr 1
  refine List.foldl_ext _ _ _ ?_
  intro most n hn
  rw [hfront n hn]

/-- The empty front part has no excess, so it does not matter that a negative one counts as none. -/
theorem depth_isGreatest (code : Bytes) :
    IsGreatest {e : Int | ∃ front, front <+: code ∧ e = openerCount front - closerCount front}
      (depth code) := by
  induction code using List.reverseRecOn with
  | nil =>
      refine ⟨⟨[], List.nil_prefix, rfl⟩, ?_⟩
      rintro e ⟨front, hfront, rfl⟩
      rw [List.prefix_nil.mp hfront]
      exact Int.le_refl 0
  | append_singleton code b ih =>
      obtain ⟨⟨deepest, hdeepest, hexcess⟩, hall⟩ := ih
      have hdepth := depth_concat code b
      constructor
      · by_cases hdeeper : depth code < openerCount (code ++ [b]) - closerCount (code ++ [b])
        · exact ⟨code ++ [b], List.prefix_refl _, by omega⟩
        · exact ⟨deepest, hdeepest.trans (List.prefix_append code [b]), by omega⟩
      · rintro e ⟨front, hfront, rfl⟩
        rcases List.prefix_concat_iff.mp hfront with rfl | hbefore
        · omega
        · have hle := hall ⟨front, hbefore, rfl⟩
          omega

/-- What the next byte of a program does to the depth of its mirror image. -/
theorem depth_mirror_concat (code : Bytes) (b : UInt8) :
    depth (mirror (code ++ [b]))
      = max (depth (mirror code)) (closerCount (code ++ [b]) - openerCount (code ++ [b])) := by
  have hconcat : mirror (code ++ [b]) = mirror code ++ [mirrorGlyph b] := mirror_append code [b]
  rw [hconcat, depth_concat, ← hconcat, openerCount_mirror, closerCount_mirror]

namespace Pairing

/-! ### The strays and the waiting openers -/

/-- What the lists of a scan that has read `code` have in length, and in which order they stand. -/
structure Scan.Measured (code : Bytes) (s : Scan) : Prop where
  openers : s.waiting.length + s.pairs.length = openerCount code
  closers : s.strays.length + s.pairs.length = closerCount code
  strays : s.strays.length = depth (mirror code)
  /-- The openers that wait come after the strays, and both lists have the latest first. -/
  ordered : (s.index :: (s.waiting ++ s.strays)).Pairwise (· > ·)

/-- Whatever part of a descending list is kept stays below an index that grows. -/
theorem descending_of_sublist {i : Nat} {l kept : List Nat} (h : (i :: l).Pairwise (· > ·))
    (hkept : List.Sublist kept (i :: l)) : ((i + 1) :: kept).Pairwise (· > ·) := by
  refine List.pairwise_cons.mpr ⟨?_, h.sublist hkept⟩
  intro j hj
  rcases List.mem_cons.mp (hkept.subset hj) with rfl | hj'
  · exact Nat.lt_succ_self j
  · exact Nat.lt_succ_of_lt ((List.pairwise_cons.mp h).1 j hj')

theorem Scan.Measured.next {code : Bytes} {s : Scan} (h : Scan.Measured code s) (b : UInt8) :
    Scan.Measured (code ++ [b]) (s.next b) := by
  obtain ⟨hopeners, hclosers, hstrays, hordered⟩ := h
  by_cases ho : b = Instruction.opener.glyph
  · subst ho
    rw [Scan.next_opener]
    refine ⟨?_, ?_, ?_, descending_of_sublist hordered (List.Sublist.refl _)⟩
    · simp only [openerCount_append, openerCount_opener, List.length_cons]
      omega
    · simp only [closerCount_append, closerCount_opener]
      omega
    · simp only [depth_mirror_concat, openerCount_append, closerCount_append, openerCount_opener,
        closerCount_opener]
      omega
  by_cases hc : b = Instruction.closer.glyph
  · subst hc
    cases hw : s.waiting with
    | nil =>
        rw [hw] at hopeners hordered
        rw [Scan.next_stray hw, hw]
        refine ⟨?_, ?_, ?_, descending_of_sublist hordered (List.Sublist.refl _)⟩
        · simp only [openerCount_append, openerCount_closer]
          exact hopeners
        · simp only [closerCount_append, closerCount_closer, List.length_cons]
          omega
        · -- The excess of closers has been the number of strays, and now exceeds it.
          simp only [depth_mirror_concat, openerCount_append, closerCount_append,
            openerCount_closer, closerCount_closer, List.length_cons]
          rw [List.length_nil] at hopeners
          omega
    | cons o below =>
        rw [hw, List.length_cons] at hopeners
        rw [hw] at hordered
        rw [Scan.next_closer hw]
        refine ⟨?_, ?_, ?_, ?_⟩
        · simp only [openerCount_append, openerCount_closer, List.length_cons]
          omega
        · simp only [closerCount_append, closerCount_closer, List.length_cons]
          omega
        · simp only [depth_mirror_concat, openerCount_append, closerCount_append,
            openerCount_closer, closerCount_closer]
          omega
        · refine descending_of_sublist hordered ?_
          exact ((List.sublist_cons_self o below).append (List.Sublist.refl _)).cons _
  · rw [Scan.next_other s ho hc]
    refine ⟨?_, ?_, ?_, descending_of_sublist hordered (List.sublist_cons_self _ _)⟩
    · simp only [openerCount_append, openerCount_other ho]
      exact hopeners
    · simp only [closerCount_append, closerCount_other hc]
      exact hclosers
    · simp only [depth_mirror_concat, openerCount_append, closerCount_append, openerCount_other ho,
        closerCount_other hc]
      omega

theorem scan_measured (code : Bytes) : Scan.Measured code (scan code) := by
  induction code using List.reverseRecOn with
  | nil => exact ⟨rfl, rfl, rfl, by simp [scan]⟩
  | append_singleton code b ih =>
      rw [scan_concat]
      exact ih.next b

/-- The strays of a program and then its waiting openers, both in ascending order. -/
def loose (code : Bytes) : List Int :=
  (scan code).strays.reverse.map Int.ofNat ++ (scan code).waiting.reverse.map Int.ofNat

theorem loose_ascending (code : Bytes) : (loose code).Pairwise (· < ·) := by
  have hordered := (List.pairwise_cons.mp (scan_measured code).ordered).2
  rw [loose, ← List.map_append, ← List.reverse_append, List.pairwise_map, List.pairwise_reverse]
  exact hordered.imp fun h => Int.ofNat_lt.mpr h

theorem mem_unmatched_iff_loose {code : Bytes} {i : Int} :
    i ∈ (ofBytes code).unmatched ↔ i ∈ loose code := by
  rw [mem_unmatched, forward_eq_none_iff, backward_eq_none_iff, loose, List.mem_append, or_comm]
  simp only [List.mem_map, List.mem_reverse]

/-- A table lists no bracket twice. -/
theorem nodup_looseKeys (table : Std.TreeMap Int Partner) :
    ((table.toList.filter fun e => e.2.isNone).map Prod.fst).Nodup := by
  have hkeys : table.toList.Pairwise fun a b => ¬compare a.1 b.1 = .eq :=
    Std.TreeMap.distinct_keys_toList
  refine List.pairwise_map.mpr ((hkeys.filter _).imp ?_)
  intro a b hne heq
  exact hne (by simp [heq])

theorem nodup_unmatched (code : Bytes) : (ofBytes code).unmatched.Nodup := by
  rw [unmatched, (List.mergeSort_perm _ _).nodup_iff, List.nodup_append]
  refine ⟨nodup_looseKeys _, nodup_looseKeys _, ?_⟩
  intro i hi j hj hij
  subst hij
  -- A bracket in both tables would wait and be a stray, but what waits comes after every stray.
  obtain ⟨o, ho, hoi⟩ := forward_eq_none_iff.mp (mem_loose_iff.mp hi)
  obtain ⟨c, hc, hci⟩ := backward_eq_none_iff.mp (mem_loose_iff.mp hj)
  have hordered := (List.pairwise_cons.mp (scan_measured code).ordered).2
  have hlt := (List.pairwise_append.mp hordered).2.2 o ho c hc
  have heq : o = c := Int.ofNat.inj (hoi.trans hci.symm)
  omega

/-- The unmatched brackets are the strays and then the waiting openers. -/
theorem unmatched_eq_loose (code : Bytes) : (ofBytes code).unmatched = loose code := by
  have hsorted : (ofBytes code).unmatched.Pairwise (· ≤ ·) := List.pairwise_mergeSort' (· ≤ ·) _
  have hascending := loose_ascending code
  refine List.Perm.eq_of_pairwise (fun _ _ _ _ => Int.le_antisymm) hsorted
    (hascending.imp Int.le_of_lt) ?_
  rw [List.perm_ext_iff_of_nodup (nodup_unmatched code) (hascending.imp Int.ne_of_lt)]
  intro i
  exact mem_unmatched_iff_loose

end Pairing

/-! ### What mirroring leaves unmatched -/

theorem Image.glyphAt_mirror (code : Bytes) (i : Int) :
    (Image.ofBytes (mirror code)).glyphAt i = mirrorGlyph ((Image.ofBytes code).glyphAt i) := by
  have hzero : mirrorGlyph 0 = 0 := by decide
  unfold Image.glyphAt
  split
  · exact hzero.symm
  · simp only [Image.ofBytes, Array.getD_eq_getD_getElem?, List.getElem?_toArray, mirror,
      List.getElem?_map]
    cases code[i.toNat]? with
    | none => exact hzero.symm
    | some g => rfl

/-- A bracket that an image shows stands in its program. -/
theorem Image.exists_bracket_of_glyphAt {code : Bytes} {i : Int}
    (h : isBracket ((Image.ofBytes code).glyphAt i)) :
    ∃ n : Nat, i = n ∧ ∃ b : Instruction, b.isBracket ∧ code[n]? = some b.glyph := by
  obtain ⟨b, hb, hglyph⟩ := isBracket_iff.mp h
  by_cases hneg : i < 0
  · have hzero : (Image.ofBytes code).glyphAt i = 0 := if_pos hneg
    rw [hzero] at h
    exact absurd h (by decide)
  · obtain ⟨n, rfl⟩ := Int.eq_ofNat_of_zero_le (Int.not_lt.mp hneg)
    exact ⟨n, rfl, b, hb, Image.getElem?_of_glyphAt (Instruction.ofGlyph?_eq_some_iff.mpr hglyph)⟩

namespace Pairing

variable {code : Bytes}

theorem glyphAt_stray {i : Nat} (h : i ∈ (scan code).strays) :
    (Image.ofBytes code).glyphAt i = Instruction.closer.glyph :=
  Image.glyphAt_ofBytes (((scan_complete code).closers i).mp (List.mem_append_left _ h))

theorem glyphAt_waiting {i : Nat} (h : i ∈ (scan code).waiting) :
    (Image.ofBytes code).glyphAt i = Instruction.opener.glyph :=
  Image.glyphAt_ofBytes (((scan_complete code).openers i).mp (List.mem_append_left _ h))

/-- Every bracket is unmatched exactly when the scan has paired none. -/
theorem all_unmatched_iff :
    (∀ i, isBracket ((Image.ofBytes code).glyphAt i) → i ∈ (ofBytes code).unmatched) ↔
      (scan code).pairs = [] := by
  have hcomplete := scan_complete code
  constructor
  · intro hall
    cases hpairs : (scan code).pairs with
    | nil => rfl
    | cons p rest =>
        exfalso
        have hp : p ∈ (scan code).pairs := by simp [hpairs]
        have hopener := (hcomplete.openers p.1).mp
          (List.mem_append_right _ (List.mem_map_of_mem hp))
        have hloose := hall p.1 (by rw [Image.glyphAt_ofBytes hopener]; decide)
        rcases mem_unmatched.mp hloose with hwaiting | hstray
        · obtain ⟨o, ho, hop⟩ := forward_eq_none_iff.mp hwaiting
          obtain rfl : o = p.1 := Int.ofNat.inj hop
          exact (List.nodup_append.mp hcomplete.openersOnce).2.2 p.1 ho p.1
            (List.mem_map_of_mem hp) rfl
        · obtain ⟨c, hc, hcp⟩ := backward_eq_none_iff.mp hstray
          obtain rfl : c = p.1 := Int.ofNat.inj hcp
          have hcloser := glyphAt_stray hc
          rw [Image.glyphAt_ofBytes hopener] at hcloser
          exact absurd hcloser (by decide)
  · intro hpairs i hi
    obtain ⟨n, rfl, b, hb, hglyph⟩ := Image.exists_bracket_of_glyphAt hi
    rw [mem_unmatched]
    cases b with
    | opener =>
        have hmem := (hcomplete.openers n).mpr hglyph
        rw [hpairs, List.map_nil, List.append_nil] at hmem
        exact Or.inl (forward_eq_none_iff.mpr ⟨n, hmem, rfl⟩)
    | closer =>
        have hmem := (hcomplete.closers n).mpr hglyph
        rw [hpairs, List.map_nil, List.append_nil] at hmem
        exact Or.inr (backward_eq_none_iff.mpr ⟨n, hmem, rfl⟩)
    | _ => simp [Instruction.isBracket] at hb

/-- A program whose brackets are all paired has as many openers as closers, and no strays. -/
theorem even_of_paired (h : (ofBytes code).unmatched = []) :
    openerCount code = closerCount code ∧ depth (mirror code) = 0 := by
  obtain ⟨hopeners, hclosers, hstrays, -⟩ := scan_measured code
  simp only [unmatched_eq_loose, loose, List.append_eq_nil_iff, List.map_eq_nil_iff,
    List.reverse_eq_nil_iff] at h
  rw [h.1, List.length_nil] at hclosers hstrays
  rw [h.2, List.length_nil] at hopeners
  exact ⟨by omega, hstrays.symm⟩

/-- The mirror image of such a program leaves as many of either kind as the program is deep. -/
theorem length_loose_of_paired (h : (ofBytes code).unmatched = []) :
    (scan (mirror code)).strays.length = depth code ∧
      (scan (mirror code)).waiting.length = depth code := by
  obtain ⟨hopeners, hclosers, hstrays, -⟩ := scan_measured (mirror code)
  rw [mirror_mirror] at hstrays
  rw [openerCount_mirror] at hopeners
  rw [closerCount_mirror] at hclosers
  have heven := (even_of_paired h).1
  exact ⟨hstrays, by omega⟩

end Pairing

/-- A front part has no more open loops than the program is deep. -/
theorem openerCount_le_depth {front code : Bytes} (h : front <+: code) :
    openerCount front ≤ closerCount front + depth code := by
  have hle := (depth_isGreatest code).2 ⟨front, h, rfl⟩
  omega

theorem closerCount_le_depth_mirror {front code : Bytes} (h : front <+: code) :
    closerCount front ≤ openerCount front + depth (mirror code) := by
  have hle := openerCount_le_depth (h.map mirrorGlyph)
  rw [← mirror, ← mirror, openerCount_mirror, closerCount_mirror] at hle
  exact hle

/-- A program without depth in both images has no brackets at all. -/
theorem not_isBracket_of_depth {code : Bytes} (h : depth code = 0)
    (hmirror : depth (mirror code) = 0) : ∀ g ∈ code, isBracket g = false := by
  intro g hg
  obtain ⟨front, back, rfl⟩ := List.append_of_mem hg
  -- Neither the text up to this byte nor the text through it has an excess of any kind.
  have hthrough : front ++ [g] <+: front ++ g :: back := ⟨back, by simp⟩
  have hupTo : front <+: front ++ g :: back := List.prefix_append _ _
  have hle := openerCount_le_depth hthrough
  have hge := closerCount_le_depth_mirror hthrough
  have hle' := openerCount_le_depth hupTo
  have hge' := closerCount_le_depth_mirror hupTo
  rw [openerCount_append, closerCount_append] at hle hge
  by_contra hbracket
  obtain ⟨b, hb, rfl⟩ := isBracket_iff.mp (by simpa using hbracket)
  cases b with
  | opener =>
      rw [openerCount_opener, closerCount_opener] at hle
      omega
  | closer =>
      rw [openerCount_closer, closerCount_closer] at hge
      omega
  | _ => simp [Instruction.isBracket] at hb

namespace Program

/--
**Mirroring unpairs as many brackets as the program is deep.**  If every bracket of a program as
written has a partner, its mirror image leaves twice as many unmatched as the depth of the program.
In ascending order, the first half of them are openers of the program as written, and the second
half closers.  So none is left exactly when the program has no brackets, and every bracket is left
exactly when there are no more than these.
-/
theorem mirror_unpairs_by_depth (code : Bytes)
    (hpaired : (Program.ofBytes code).standard.brackets.unmatched = []) :
    let written := (Program.ofBytes code).standard
    let left := (Program.ofBytes code).mirrored.brackets.unmatched
    IsGreatest {e : Int | ∃ front, front <+: code ∧ e = openerCount front - closerCount front}
      (depth code) ∧
    left.length = 2 * depth code ∧ left.Pairwise (· < ·) ∧
    (∀ i ∈ left.take (depth code), written.glyphAt i = Instruction.opener.glyph) ∧
    (∀ i ∈ left.drop (depth code), written.glyphAt i = Instruction.closer.glyph) ∧
    (left = [] ↔ ∀ g ∈ code, isBracket g = false) ∧
    ((∀ i, isBracket (written.glyphAt i) → i ∈ left) ↔
      openerCount code + closerCount code = 2 * depth code) := by
  intro written left
  obtain ⟨hstrays, hwaiting⟩ := Pairing.length_loose_of_paired hpaired
  obtain ⟨heven, hmirror⟩ := Pairing.even_of_paired hpaired
  obtain ⟨-, hclosers, -, -⟩ := Pairing.scan_measured (mirror code)
  rw [closerCount_mirror] at hclosers
  have hleft : left = Pairing.loose (mirror code) := Pairing.unmatched_eq_loose (mirror code)
  have hlength : left.length = 2 * depth code := by
    simp only [hleft, Pairing.loose, List.length_append, List.length_map, List.length_reverse]
    omega
  have hhalf : ((Pairing.scan (mirror code)).strays.reverse.map Int.ofNat).length = depth code := by
    simpa using hstrays
  have hwritten : ∀ i,
      written.glyphAt i = mirrorGlyph ((Image.ofBytes (mirror code)).glyphAt i) := by
    intro i
    rw [Image.glyphAt_mirror, mirrorGlyph_mirrorGlyph]
    rfl
  refine ⟨depth_isGreatest code, hlength, ?_, ?_, ?_, ?_, ?_⟩
  · rw [hleft]
    exact Pairing.loose_ascending (mirror code)
  · rw [hleft, Pairing.loose, List.take_left' hhalf]
    intro i hi
    obtain ⟨n, hn, rfl⟩ := List.mem_map.mp hi
    rw [hwritten]
    exact congrArg mirrorGlyph (Pairing.glyphAt_stray (List.mem_reverse.mp hn))
  · rw [hleft, Pairing.loose, List.drop_left' hhalf]
    intro i hi
    obtain ⟨n, hn, rfl⟩ := List.mem_map.mp hi
    rw [hwritten]
    exact congrArg mirrorGlyph (Pairing.glyphAt_waiting (List.mem_reverse.mp hn))
  · constructor
    · intro hnil
      rw [hnil, List.length_nil] at hlength
      exact not_isBracket_of_depth (by omega) hmirror
    · intro hnone
      have hzero : openerCount code = 0 := by
        refine List.count_eq_zero.mpr ?_
        intro hmem
        exact absurd (hnone _ hmem) (by decide)
      exact List.eq_nil_of_length_eq_zero (by omega)
  · have hsame : ∀ i, isBracket (written.glyphAt i)
        = isBracket ((Image.ofBytes (mirror code)).glyphAt i) := by
      intro i
      rw [hwritten, isBracket_mirrorGlyph]
    simp only [hsame]
    refine Pairing.all_unmatched_iff.trans ?_
    rw [← List.length_eq_zero_iff]
    omega

/--
The program `{}{{}}` is two deep.  Its mirror image leaves four brackets unmatched, and pairs the
two that are left.
-/
theorem mirror_unpairs_by_depth_but_for_middle :
    let code : Bytes := [0x7B, 0x7D, 0x7B, 0x7B, 0x7D, 0x7D]
    let left := (Program.ofBytes code).mirrored.brackets.unmatched
    (Program.ofBytes code).standard.brackets.unmatched = [] ∧ depth code = 2 ∧
      left = [0, 3, 4, 5] ∧ left.length = 2 * depth code ∧
      ¬∀ i, isBracket ((Program.ofBytes code).standard.glyphAt i) → i ∈ left := by
  obtain ⟨-, hlength, -, -, -, -, hall⟩ :=
    mirror_unpairs_by_depth [0x7B, 0x7D, 0x7B, 0x7B, 0x7D, 0x7D] (by decide +kernel)
  refine ⟨by decide +kernel, by decide, ?_, hlength, fun h => absurd (hall.mp h) (by decide)⟩
  exact (Pairing.unmatched_eq_loose _).trans (by decide)

end Program

end TimeTape
