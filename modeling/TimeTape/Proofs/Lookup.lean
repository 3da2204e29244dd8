/-
Looking up a place finds the first byte of the character there.

The index of a place is found by halving, which is right only if the places of a program come in
order.  They do: between two characters of a program there may be line breaks, and then the line
number rises, or there are none, and then the two are on one line and the second has at least the
units of the first before it.  So different characters have different places, and only the bytes of
one character share theirs.
-/
import TimeTape.Proofs.Positions

namespace TimeTape

open Utf8

/-! ### The order of places -/

theorem Position.before_iff {p q : Position} :
    p.before q ↔ p.line < q.line ∨ p.line = q.line ∧ p.character < q.character := by
  simp [before]

theorem Position.not_before_self (p : Position) : ¬p.before p := by
  rw [before_iff]
  omega

theorem Position.not_before_of_before {p q : Position} (h : p.before q) : ¬q.before p := by
  rw [before_iff] at *
  omega

/-- Places are comparable. -/
theorem Position.eq_of_not_before {p q : Position} (hpq : ¬p.before q) (hqp : ¬q.before p) :
    p = q := by
  rw [before_iff] at hpq hqp
  have hline : p.line = q.line := by omega
  have hcharacter : p.character = q.character := by omega
  cases p
  cases q
  simp_all

theorem Position.before_of_not_before {p q r : Position} (hqp : ¬q.before p) (hqr : q.before r) :
    p.before r := by
  rw [before_iff] at *
  omega

/-! ### Halving -/

namespace Document

/-- The first index before `size` at which a test holds is between `lo` and `hi`. -/
structure Narrowed (test : Nat → Bool) (size lo hi : Nat) : Prop where
  le : lo ≤ hi
  inside : hi ≤ size
  below : ∀ k, k < lo → test k = false
  above : ∀ k, hi ≤ k → k < size → test k = true

/-- A test that goes on holding once it holds. -/
def Rising (test : Nat → Bool) (size : Nat) : Prop :=
  ∀ i j, i ≤ j → j < size → test i = true → test j = true

variable {test : Nat → Bool} {size : Nat}

theorem search_narrows (hrising : Rising test size) (rounds : Nat) :
    ∀ lo hi, Narrowed test size lo hi → hi - lo ≤ rounds →
      Narrowed test size (search test rounds lo hi) (search test rounds lo hi) := by
  induction rounds with
  | zero =>
      intro lo hi h hrounds
      have heq : hi = lo := by
        have := h.le
        omega
      rw [heq] at h
      exact h
  | succ rounds ih =>
      intro lo hi h hrounds
      have hle := h.le
      have hinside := h.inside
      unfold search
      by_cases hlt : lo < hi
      · rw [if_pos hlt]
        by_cases htest : test ((lo + hi) / 2)
        · simp only [htest, if_true]
          refine ih _ _ ⟨by omega, by omega, h.below, ?_⟩ (by omega)
          intro k hk hsize
          exact hrising _ k hk hsize htest
        · simp only [htest]
          refine ih _ _ ⟨by omega, hinside, ?_, h.above⟩ (by omega)
          -- If the test held before the middle it would hold in the middle.
          intro k hk
          by_contra hholds
          exact htest (hrising k _ (by omega) (by omega) (by simpa using hholds))
      · rw [if_neg hlt]
        have heq : hi = lo := by omega
        rw [heq] at h
        exact h

/-- The places of a document come in order. -/
def Ordered (d : Document) : Prop :=
  ∀ i j, i ≤ j → j < d.positions.size → ¬(d.position j).before (d.position i)

theorem position_of_getElem? {d : Document} {i : Nat} {p : Position}
    (h : d.positions[i]? = some p) : d.position i = p := by
  unfold position
  rw [Array.getD_eq_getD_getElem?, h]
  rfl

theorem lt_of_getElem? {d : Document} {i : Nat} {p : Position} (h : d.positions[i]? = some p) :
    i < d.positions.size := by
  obtain ⟨hi, -⟩ := Array.getElem?_eq_some_iff.mp h
  exact hi

/-- Halving finds where the places before a given one end. -/
theorem Ordered.narrowed {d : Document} (hd : d.Ordered) (p : Position) :
    let i := search (fun i => !(d.position i).before p) d.positions.size 0 d.positions.size
    Narrowed (fun i => !(d.position i).before p) d.positions.size i i := by
  refine search_narrows ?_ _ _ _ ⟨Nat.zero_le _, Nat.le_refl _, ?_, ?_⟩ (Nat.sub_le _ _)
  · intro i j hij hj hi
    simp only [Bool.not_eq_true', Bool.eq_false_iff] at hi ⊢
    intro hbefore
    exact hi (Position.before_of_not_before (hd i j hij hj) hbefore)
  · intro k hk
    cases hk
  · intro k hk hlt
    omega

/-- In a document with its places in order, the index of a place is the first one with it. -/
theorem Ordered.index?_eq_some_iff {d : Document} (hd : d.Ordered) {p : Position} {i : Nat} :
    d.index? p = some i ↔
      d.positions[i]? = some p ∧ ∀ k, k < i → d.positions[k]? ≠ some p := by
  have hnarrow := hd.narrowed p
  unfold index?
  generalize hfound : search (fun i => !(d.position i).before p) d.positions.size 0
    d.positions.size = found at hnarrow
  simp only [hfound]
  have hfirst : ∀ k, k < found → d.positions[k]? ≠ some p := by
    intro k hk hp
    have hbefore := hnarrow.below k hk
    rw [position_of_getElem? hp, Bool.not_eq_false'] at hbefore
    exact p.not_before_self hbefore
  constructor
  · intro h
    split at h
    · rename_i hp
      obtain rfl := Option.some.inj h
      exact ⟨hp, hfirst⟩
    · cases h
  · intro ⟨hp, hleast⟩
    have hi := lt_of_getElem? hp
    have hle : found ≤ i := by
      by_contra hgt
      exact hfirst i (by omega) hp
    have hlt : found < d.positions.size := by omega
    have heq : d.positions[found]? = some p := by
      have hnot : ¬(d.position found).before p := by
        simpa using hnarrow.above found (Nat.le_refl found) hlt
      have hordered := hd found i hle hi
      rw [position_of_getElem? hp] at hordered
      exact (getElem?_positions hlt).trans (congrArg some (Position.eq_of_not_before hnot hordered))
    obtain rfl : found = i := by
      by_contra hne
      exact hleast found (by omega) heq
    rw [if_pos heq]

theorem Ordered.index?_eq_none_iff {d : Document} (hd : d.Ordered) {p : Position} :
    d.index? p = none ↔ ∀ i : Nat, d.positions[i]? ≠ some p := by
  constructor
  · intro hnone i
    induction i using Nat.strongRecOn with
    | ind i ih =>
        -- The least index with the place would have been found.
        intro hp
        have hfound := hd.index?_eq_some_iff.mpr ⟨hp, ih⟩
        rw [hnone] at hfound
        cases hfound
  · intro hnot
    cases hindex : d.index? p with
    | none => rfl
    | some i => exact absurd (hd.index?_eq_some_iff.mp hindex).1 (hnot i)

end Document

/-! ### Two characters of a text -/

theorem breaksUpTo_prefix (text : Bytes) (o n : Nat) :
    Text.breaksUpTo text o <+: Text.breaksUpTo text (o + n) := by
  induction n with
  | zero => exact List.prefix_refl _
  | succ n ih =>
      rw [← Nat.add_assoc, Text.breaksUpTo_succ]
      exact ih.trans (List.prefix_append _ _)

/-- Front parts of a text that are equally long are the same. -/
theorem eq_of_length_encode {a b pieces : List Piece} (ha : a <+: pieces) (hb : b <+: pieces)
    (h : (encode a).length = (encode b).length) : a = b := by
  have hnil : ∀ c : List Piece, (encode c).length = 0 → c = [] := by
    intro c hc
    cases c with
    | nil => rfl
    | cons p rest =>
        have hpos := length_bytes_pos p
        rw [encode_cons, List.length_append] at hc
        omega
  rcases List.prefix_or_prefix_of_prefix ha hb with ⟨c, rfl⟩ | ⟨c, rfl⟩
  · rw [encode_append, List.length_append] at h
    rw [hnil c (by omega), List.append_nil]
  · rw [encode_append, List.length_append] at h
    rw [hnil c (by omega), List.append_nil]

/-- The first byte of the character that a byte belongs to. -/
theorem Cut.first {text : Bytes} {i k : Nat} {front back : List Piece} {piece : Piece}
    (h : Cut text i front piece back k) :
    Cut text (Text.joinLines (encode front)).length front piece back 0 :=
  ⟨h.split, h.word, length_bytes_pos piece, rfl⟩

section TwoCuts

variable {text : Bytes} {i j k l : Nat} {front front' back back' middle : List Piece}
  {piece piece' : Piece}

/-- Of two characters of a text, one comes first, unless they are the same. -/
theorem Cut.trichotomy (h : Cut text i front piece back k) (h' : Cut text j front' piece' back' l) :
    (front = front' ∧ piece = piece') ∨ (∃ middle, front' = front ++ piece :: middle) ∨
      ∃ middle, front = front' ++ piece' :: middle := by
  rcases List.append_eq_append_iff.mp (h.split.symm.trans h'.split) with
    ⟨extra, hfront, hrest⟩ | ⟨extra, hfront, hrest⟩
  · cases extra with
    | nil =>
        rw [List.append_nil] at hfront
        exact Or.inl ⟨hfront.symm, (List.cons.inj hrest).1⟩
    | cons first middle =>
        obtain ⟨rfl, -⟩ := List.cons.inj hrest
        exact Or.inr (Or.inl ⟨middle, hfront⟩)
  · cases extra with
    | nil =>
        rw [List.append_nil] at hfront
        exact Or.inl ⟨hfront, (List.cons.inj hrest).1.symm⟩
    | cons first middle =>
        obtain ⟨rfl, -⟩ := List.cons.inj hrest
        exact Or.inr (Or.inr ⟨middle, hfront⟩)

/-- The bytes of an earlier character come earlier in the program. -/
theorem Cut.index_lt (h : Cut text i front piece back k)
    (h' : Cut text j (front ++ piece :: middle) piece' back' l) : i < j := by
  have hpiece := Piece.joinLines_of_not_breaks (clean_of_split h.split) h.word
  have hi := h.index
  have hj := h'.index
  have hk := h.lt
  rw [encode_append, encode_cons, joinLines_append, joinLines_append, hpiece, List.length_append,
    List.length_append] at hj
  omega

/-- The place of an earlier character comes earlier. -/
theorem Cut.place_before (h : Cut text i front piece back k)
    (h' : Cut text j (front ++ piece :: middle) piece' back' l) :
    (Text.place text (encode front).length).before
      (Text.place text (encode (front ++ piece :: middle)).length) := by
  obtain ⟨before, line, hfront, hstart, hunits, -⟩ :=
    place_of_split h.split (not_splitsBreak_of_not_breaks h.word)
  obtain ⟨before', line', hfront', hstart', hunits', -⟩ :=
    place_of_split h'.split (not_splitsBreak_of_not_breaks h'.word)
  have hprefix : Text.breaksUpTo text (encode front).length <+:
      Text.breaksUpTo text (encode (front ++ piece :: middle)).length := by
    rw [encode_append, List.length_append]
    exact breaksUpTo_prefix text _ _
  rw [Position.before_iff]
  by_cases hline : (Text.breaksUpTo text (encode front).length).length =
      (Text.breaksUpTo text (encode (front ++ piece :: middle)).length).length
  · -- Without a break in between, both are on the line that starts behind the same pieces.
    have hsame := hprefix.eq_of_length hline
    have hbefore : before' = before := by
      refine eq_of_length_encode ⟨line', hfront'.symm⟩ ⟨line ++ piece :: middle, ?_⟩ ?_
      · rw [hfront, List.append_assoc]
      · rw [hstart, hstart', Text.lineStart, Text.lineStart, hsame]
    have hlonger : line' = line ++ ([piece] ++ middle) := by
      rw [hbefore, hfront, List.append_assoc] at hfront'
      exact (List.append_cancel_left hfront').symm
    have hpos := units_pos piece
    refine Or.inr ⟨hline, ?_⟩
    rw [hunits, hunits', hlonger, units_append, units_append, units_singleton, List.length_append,
      List.length_append, length_utf16]
    omega
  · refine Or.inl ?_
    show (Text.breaksUpTo text _).length < (Text.breaksUpTo text _).length
    have hle := hprefix.length_le
    omega

end TwoCuts

/-! ### Looking up a place of a text -/

namespace Document

/-- What has a place is a byte of the program. -/
theorem exists_cut_of_position {text : Bytes} {i : Nat} {p : Position}
    (h : (ofText text).positions[i]? = some p) :
    ∃ front piece back k, Cut text i front piece back k := by
  have hlt := lt_of_getElem? h
  rw [size_positions] at hlt
  exact exists_cut hlt

section Lookup

variable {text : Bytes} (hsize : text.length < UInt32.size)

include hsize

/-- Two bytes of a program have the same place only if they belong to the same character. -/
theorem cut_eq_of_position {i j k l : Nat} {front front' back back' : List Piece}
    {piece piece' : Piece} (h : Cut text i front piece back k)
    (h' : Cut text j front' piece' back' l)
    (heq : (ofText text).positions[i]? = (ofText text).positions[j]?) :
    front = front' ∧ piece = piece' := by
  rw [h.position hsize, h'.position hsize, Option.some.injEq] at heq
  rcases h.trichotomy h' with hsame | ⟨middle, rfl⟩ | ⟨middle, rfl⟩
  · exact hsame
  · have hbefore := h.place_before h'
    rw [heq] at hbefore
    exact absurd hbefore (Position.not_before_self _)
  · have hbefore := h'.place_before h
    rw [heq] at hbefore
    exact absurd hbefore (Position.not_before_self _)

/-- The places of a text come in order. -/
theorem ordered_ofText : (ofText text).Ordered := by
  intro i j hij hj
  rw [size_positions] at hj
  obtain ⟨front, piece, back, k, h⟩ := exists_cut (Nat.lt_of_le_of_lt hij hj)
  obtain ⟨front', piece', back', l, h'⟩ := exists_cut hj
  rw [position_of_getElem? (h.position hsize), position_of_getElem? (h'.position hsize)]
  intro hbefore
  rcases h.trichotomy h' with ⟨rfl, -⟩ | ⟨middle, rfl⟩ | ⟨middle, rfl⟩
  · exact Position.not_before_self _ hbefore
  · exact Position.not_before_of_before (h.place_before h') hbefore
  · have hlt := h'.index_lt h
    omega

/-- The place of a byte leads to the first byte of its character. -/
theorem index?_of_cut {i k : Nat} {front back : List Piece} {piece : Piece}
    (h : Cut text i front piece back k) :
    (ofText text).index? (Text.place text (encode front).length) =
      some (Text.joinLines (encode front)).length := by
  have hposition := h.first.position hsize
  rw [(ordered_ofText hsize).index?_eq_some_iff]
  refine ⟨hposition, ?_⟩
  intro j hj heq
  obtain ⟨front', piece', back', l, h'⟩ := exists_cut_of_position heq
  obtain ⟨rfl, -⟩ := cut_eq_of_position hsize h' h.first (heq.trans hposition.symm)
  have hindex := h'.index
  omega

end Lookup

/--
**Looking up a place undoes placing.**  In a text of less than 2³² bytes, the index of a place is
the least one that has this place, and there is none exactly if no byte of the program has it.  Two
bytes of the program have the same place exactly if they belong to the same character, so that the
place of a byte leads to the first byte of its character.
-/
theorem index_inverts_positions (text : Bytes) (hsize : text.length < UInt32.size) :
    (∀ p i, (ofText text).index? p = some i ↔
      (ofText text).positions[i]? = some p ∧ ∀ k, k < i → (ofText text).positions[k]? ≠ some p) ∧
    (∀ p, (ofText text).index? p = none ↔ ∀ i : Nat, (ofText text).positions[i]? ≠ some p) ∧
    (∀ i j, i < (ofText text).code.length → j < (ofText text).code.length →
      ((ofText text).positions[i]? = (ofText text).positions[j]? ↔
        ∃ o, BelongsTo text i o ∧ BelongsTo text j o)) ∧
    ∀ i, i < (ofText text).code.length →
      ∃ p o first, (ofText text).positions[i]? = some p ∧ BelongsTo text i o ∧
        LoadedFrom text first o ∧ (ofText text).index? p = some first := by
  have hordered := ordered_ofText hsize
  rw [code_ofText]
  refine ⟨fun p i => hordered.index?_eq_some_iff, fun p => hordered.index?_eq_none_iff, ?_, ?_⟩
  · intro i j hi hj
    constructor
    · intro heq
      obtain ⟨front, piece, back, k, h⟩ := exists_cut hi
      obtain ⟨front', piece', back', l, h'⟩ := exists_cut hj
      obtain ⟨rfl, -⟩ := cut_eq_of_position hsize h h' heq
      exact ⟨_, belongsTo_iff.mpr ⟨front, piece, back, k, h, rfl⟩,
        belongsTo_iff.mpr ⟨front, piece', back', l, h', rfl⟩⟩
    · intro ⟨o, hi', hj'⟩
      rw [position_of_belongsTo hi' hsize, position_of_belongsTo hj' hsize]
  · intro i hi
    obtain ⟨front, piece, back, k, h⟩ := exists_cut hi
    exact ⟨_, _, _, h.position hsize, belongsTo_iff.mpr ⟨front, piece, back, k, h, rfl⟩,
      h.first.loadedFrom, index?_of_cut hsize h⟩

/--
In `é{` and, on the next line, `}`: both bytes of the first character have its place, which leads to
the first of them.  The closer is found at the start of its line, and nothing at the line's end.
-/
theorem index_inverts_positions_behind_accent :
    let text : Bytes := [0xC3, 0xA9, 0x7B, 0x0D, 0x0A, 0x7D]
    (∃ o, BelongsTo text 0 o ∧ BelongsTo text 1 o) ∧
      (ofText text).index? ⟨0, 0⟩ = some 0 ∧ (ofText text).index? ⟨1, 0⟩ = some 3 ∧
      (ofText text).index? ⟨0, 2⟩ = none := by
  intro text
  obtain ⟨hsome, hnone, hsame, -⟩ := index_inverts_positions text (by decide)
  have hpositions : (ofText text).positions = #[⟨0, 0⟩, ⟨0, 0⟩, ⟨0, 1⟩, ⟨1, 0⟩] := by decide
  refine ⟨(hsame 0 1 (by decide) (by decide)).mp (by rw [hpositions]; rfl), ?_, ?_, ?_⟩
  · exact (hsome _ _).mpr ⟨by rw [hpositions]; rfl, by rw [hpositions]; decide⟩
  · exact (hsome _ _).mpr ⟨by rw [hpositions]; rfl, by rw [hpositions]; decide⟩
  · refine (hnone _).mpr ?_
    intro i hi
    have hmem := Array.mem_of_getElem? hi
    simp [hpositions] at hmem

end Document

end TimeTape
