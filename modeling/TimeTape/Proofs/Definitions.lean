/-
Going to the definition of a bracket and back.

A question of an editor passes through four sets of coordinates: a place of the text, the index of
the byte there, the index of its partner, and the place of that.  Each way there and back is settled
by now, and here they are put together.  What makes the round trip exact is that a bracket is a
character of one byte and one unit.  So the index of its place is its own and not that of an earlier
byte of the same character, and the range of one unit that is answered is the bracket and nothing
else.

The answers are computed by reading without looking first, which gives something also where there is
nothing to read.  The functions named `read` are the same but for that: a read outside the document
gives no answer.  That they answer alike says that no such read is made.
-/
import TimeTape.Proofs.Lookup
import TimeTape.Proofs.Partners
import TimeTape.Document.Advice

namespace TimeTape

open Utf8

/-! ### A bracket is a character of its own -/

namespace Instruction

/-- The piece of text that an instruction is written as. -/
def piece (b : Instruction) : Piece :=
  .char (Char.ofNat b.glyph.toNat)

theorem glyph_lt (b : Instruction) : b.glyph.toNat < 0x80 := by
  cases b <;> decide

theorem bytes_piece (b : Instruction) : b.piece.bytes = [b.glyph] :=
  utf8EncodeChar_one b.glyph_lt

theorem units_piece (b : Instruction) : b.piece.units = 1 := by
  cases b <;> rfl

end Instruction

/-- The byte of the program at a cut is that of the character. -/
theorem Cut.getElem?_code {text : Bytes} {i k : Nat} {front back : List Piece} {piece : Piece}
    (h : Cut text i front piece back k) : (Text.joinLines text)[i]? = piece.bytes[k]? := by
  have hpiece := Piece.joinLines_of_not_breaks (clean_of_split h.split) h.word
  rw [eq_of_split h.split, joinLines_append, joinLines_append, hpiece, h.index,
    List.getElem?_append_right (Nat.le_add_right _ _), Nat.add_sub_cancel_left,
    List.getElem?_append_left h.lt]

/-- An instruction of the program is a whole character of the text. -/
theorem exists_cut_of_glyph {text : Bytes} {i : Nat} {b : Instruction}
    (h : (Text.joinLines text)[i]? = some b.glyph) :
    ∃ front back, Cut text i front b.piece back 0 := by
  obtain ⟨hi, -⟩ := List.getElem?_eq_some_iff.mp h
  obtain ⟨front, piece, back, k, hcut⟩ := exists_cut hi
  rw [hcut.getElem?_code] at h
  obtain rfl : piece = b.piece :=
    clean_of_split hcut.split _ (List.mem_of_getElem? h) b.glyph_lt
  have hk := hcut.lt
  rw [b.bytes_piece, List.length_singleton, Nat.lt_one_iff] at hk
  subst hk
  exact ⟨front, back, hcut⟩

/-! ### The range of a bracket -/

/-- Whether a place lies in a range. -/
def Range.covers (r : Range) (p : Position) : Bool :=
  !p.before r.start && p.before r.stop

theorem Range.covers_iff {start stop p : Position} :
    Range.covers ⟨start, stop⟩ p ↔ ¬p.before start ∧ p.before stop := by
  simp [covers]

/-- A range of one unit covers the place that it starts at. -/
theorem Range.covers_unit_iff {p q : Position} :
    Range.covers ⟨q, ⟨q.line, q.character + 1⟩⟩ p ↔ p = q := by
  rw [covers_iff]
  constructor
  · intro ⟨hstart, hstop⟩
    refine Position.eq_of_not_before hstart ?_
    rw [Position.before_iff] at hstart hstop ⊢
    simp only at hstop
    omega
  · rintro rfl
    exact ⟨p.not_before_self, Position.before_iff.mpr (.inr ⟨rfl, Nat.lt_succ_self _⟩)⟩

/--
The range covers a character of the text, the byte `g`, which is the byte of the program at index
`j`, and it covers no other byte of the program.
-/
structure CoversOnly (text : Bytes) (r : Range) (j : Nat) (g : UInt8) : Prop where
  character : ∃ o, text[o]? = some g ∧ LoadedFrom text j o ∧
    r = ⟨Text.place text o, Text.place text (o + 1)⟩
  only : ∀ k p, (Document.ofText text).positions[k]? = some p → (r.covers p ↔ k = j)

namespace Document

section Ranges

variable {text : Bytes} (hsize : text.length < UInt32.size) {j : Nat} {b : Instruction}
  (hglyph : (Text.joinLines text)[j]? = some b.glyph)

include hsize hglyph

/-- The place of an instruction leads to itself. -/
theorem index?_position_of_glyph : (ofText text).index? ((ofText text).position j) = some j := by
  obtain ⟨front, back, hcut⟩ := exists_cut_of_glyph hglyph
  rw [position_of_getElem? (hcut.position hsize), index?_of_cut hsize hcut]
  exact congrArg some hcut.index.symm

/-- The range of an instruction reaches from its offset to the next one. -/
theorem coversOnly_characterRange :
    CoversOnly text ((ofText text).characterRange j) j b.glyph := by
  obtain ⟨front, back, hcut⟩ := exists_cut_of_glyph hglyph
  have hposition := hcut.position hsize
  have hrange : (ofText text).characterRange j =
      ⟨Text.place text (encode front).length,
        ⟨(Text.place text (encode front).length).line,
          (Text.place text (encode front).length).character + 1⟩⟩ := by
    have hlt := lt_length_of_split hcut.split
    have hle := (place_le text (encode front).length).2
    rw [characterRange, position_of_getElem? hposition]
    simp only [Position.shift]
    rw [Position.wrap_of_lt (by omega)]
  constructor
  · have hnext := place_behind hcut.split hcut.word
    rw [encode_append, List.length_append, encode_cons, encode_nil, List.append_nil, b.bytes_piece,
      b.units_piece, List.length_singleton] at hnext
    refine ⟨(encode front).length, ?_, hcut.loadedFrom, by rw [hrange, hnext]⟩
    have hbyte := getElem?_of_split hcut.split hcut.lt
    rwa [Nat.add_zero, b.bytes_piece] at hbyte
  · intro k p hp
    rw [hrange, Range.covers_unit_iff]
    constructor
    · rintro rfl
      -- A byte at the same place would belong to the same character, which has no other.
      obtain ⟨front', piece', back', l, h'⟩ := exists_cut_of_position hp
      obtain ⟨rfl, rfl⟩ := cut_eq_of_position hsize h' hcut (hp.trans hposition.symm)
      have hindex := h'.index
      have hl := h'.lt
      rw [b.bytes_piece, List.length_singleton] at hl
      have hj := hcut.index
      omega
    · rintro rfl
      exact Option.some.inj (hp.symm.trans hposition)

end Ranges

/-! ### Reading with care -/

/-- The place of the program byte at an index, if there is such a byte. -/
def readPosition? (d : Document) (i : Int) : Option Position :=
  if i < 0 then none else d.positions[i.toNat]?

/-- The single character at an index, if there is one. -/
def readRange? (d : Document) (i : Int) : Option Range :=
  (d.readPosition? i).map fun start => { start, stop := start.shift 1 }

/-- What is on file about the byte at an index of an image, if there is such a byte. -/
def readPartner? (d : Document) (direction : Direction) (i : Nat) : Option (Option Partner) :=
  let image := d.program.image direction
  image.glyphs[i]?.map fun glyph => image.brackets.entry? glyph i

/-- The definition of a bracket, unless something is read that is not there. -/
def readDefinition? (d : Document) (uri : String) (i : Nat) : Option (Option Location) := do
  (← d.readPartner? .forward i).join.mapM fun p => return { uri, range := ← d.readRange? p }

/-- The sentence about a bracket's partner, unless something is read that is not there. -/
def readPartnerLine? (d : Document) (i : Nat) (direction : Direction) : Option String := do
  let placed ← (← d.readPartner? direction i).join.mapM fun p => return (p, ← d.readPosition? p)
  return direction.partnerText placed

/-- The explanation of an instruction, unless something is read that is not there. -/
def readHover? (d : Document) (i : Nat) : Option (Option Hover) := do
  (Instruction.ofGlyph? (← d.program.standard.glyphs[i]?)).mapM fun instruction => do
    let partners ←
      if instruction.isBracket then
        pure ("\n" ++ (← d.readPartnerLine? i .forward) ++ (← d.readPartnerLine? i .reverse))
      else pure ""
    return { range := ← d.readRange? i, text := instruction.explanation i partners }

theorem readPosition?_of_lt {d : Document} {i : Nat} (h : i < d.positions.size) :
    d.readPosition? i = some (d.position i) := by
  unfold readPosition?
  rw [if_neg (by omega), Int.toNat_natCast, position, Array.getD_eq_getD_getElem?,
    Array.getElem?_eq_getElem h, Option.getD_some]

theorem readRange?_of_lt {d : Document} {i : Nat} (h : i < d.positions.size) :
    d.readRange? i = some (d.characterRange i) := by
  unfold readRange?
  rw [readPosition?_of_lt h]
  rfl

/-- Where every read that depends on a value succeeds, reading is mapping. -/
theorem mapM_eq_some_map {α β : Type} {o : Option α} {f : α → Option β} {g : α → β}
    (h : ∀ a, o = some a → f a = some (g a)) : o.mapM f = some (o.map g) := by
  cases o with
  | none => rfl
  | some a =>
      rw [Option.mapM_some, h a rfl]
      rfl

section Reads

variable {text : Bytes} {d : Direction} {i : Nat}

/-- A partner that is on file is inside the document. -/
theorem partner_inside {p : Int} (h : ((ofText text).partner? d i).join = some p) :
    ∃ j : Nat, p = j ∧ j < (ofText text).positions.size := by
  obtain ⟨j, hj, hpartner⟩ := partner?_eq_partner_iff.mp (Option.join_eq_some_iff.mp h)
  obtain ⟨b, -, -, hglyph⟩ := hpartner.mirrored
  have hlt := (List.getElem?_eq_some_iff.mp hglyph).1
  rw [Program.length_text] at hlt
  exact ⟨j, hj, (size_positions text).symm ▸ hlt⟩

variable (hi : i < (ofText text).positions.size)

include hi

/-- Inside the document there is a byte to read in either direction. -/
theorem exists_glyph (d : Direction) :
    ∃ g, ((ofText text).program.image d).glyphs[i]? = some g ∧
      ((ofText text).program.image d).glyphAt i = g := by
  rw [size_positions, ← Program.length_text _ d] at hi
  have hg := List.getElem?_eq_getElem hi
  rw [image_ofText]
  exact ⟨_, by simp [Image.ofBytes], Image.glyphAt_ofBytes hg⟩

theorem readPartner?_eq (d : Direction) :
    (ofText text).readPartner? d i = some ((ofText text).partner? d i) := by
  obtain ⟨g, hread, hglyph⟩ := exists_glyph hi d
  unfold readPartner? partner?
  simp only [hread, hglyph, Option.map_some]

theorem readDefinition?_eq (uri : String) :
    (ofText text).readDefinition? uri i = some ((ofText text).definition? uri i) := by
  unfold readDefinition? definition?
  rw [readPartner?_eq hi]
  refine mapM_eq_some_map ?_
  intro p hp
  obtain ⟨j, rfl, hj⟩ := partner_inside hp
  rw [readRange?_of_lt hj]
  rfl

theorem readPartnerLine?_eq (d : Direction) :
    (ofText text).readPartnerLine? i d = some ((ofText text).partnerLine i d) := by
  have hplaced : (((ofText text).partner? d i).join.mapM fun p => do
        return (p, ← (ofText text).readPosition? p)) =
      some (((ofText text).partner? d i).join.map fun p =>
        (p, (ofText text).position p.toNat)) := by
    refine mapM_eq_some_map ?_
    intro p hp
    obtain ⟨j, rfl, hj⟩ := partner_inside hp
    rw [readPosition?_of_lt hj]
    rfl
  unfold readPartnerLine? partnerLine
  rw [readPartner?_eq hi, Option.bind_eq_bind, Option.bind_some, hplaced]
  rfl

theorem readHover?_eq : (ofText text).readHover? i = some ((ofText text).hover? i) := by
  obtain ⟨g, hread, hglyph⟩ := exists_glyph hi .forward
  unfold readHover? hover? glyph
  rw [show (ofText text).program.standard.glyphs[i]? = some g from hread,
    show (ofText text).program.standard.glyphAt i = g from hglyph]
  refine mapM_eq_some_map ?_
  intro instruction _
  rw [readPartnerLine?_eq hi, readPartnerLine?_eq hi, readRange?_of_lt hi]
  by_cases hbracket : instruction.isBracket
  · simp only [hbracket, if_true]
    rfl
  · simp only [hbracket]
    rfl

end Reads

/-! ### There and back -/

/-- What is answered at an index is where the partner of the bracket there stands. -/
theorem definition?_eq_some_iff {text : Bytes} {uri : String} {i : Nat} {l : Location} :
    (ofText text).definition? uri i = some l ↔
      ∃ j, Partnered (ofText text).code i j ∧ l = ⟨uri, (ofText text).characterRange j⟩ := by
  unfold definition?
  rw [code_ofText, Option.map_eq_some_iff]
  constructor
  · rintro ⟨p, hp, rfl⟩
    obtain ⟨j, rfl, hpartner⟩ := partner?_eq_partner_iff.mp (Option.join_eq_some_iff.mp hp)
    exact ⟨j, hpartner, rfl⟩
  · rintro ⟨j, hpartner, rfl⟩
    have hp : (ofText text).partner? .forward i = some (some (j : Int)) :=
      partner?_eq_partner_iff.mpr ⟨j, rfl, hpartner⟩
    exact ⟨j, Option.join_eq_some_iff.mpr hp, rfl⟩

/--
**Going to the definition twice leads back.**  At a place where there is a byte of the program, a
location is answered exactly if the byte is a bracket that has a partner in the program as written.
The range of the location is that of a bracket of the opposite kind, and of nothing else.  At the
start of it there is a byte of the program too, and the location that is answered there starts at
the place that was asked about first.  On the way nothing is read that is not there, nor is it for
the explanation of the byte.
-/
theorem definition_is_involution (text : Bytes) (hsize : text.length < UInt32.size) (uri : String)
    (p : Position) (i : Nat) (hi : (ofText text).index? p = some i) :
    ((∃ l, (ofText text).definition? uri i = some l) ↔ ∃ j, Partnered (ofText text).code i j) ∧
    (∀ l, (ofText text).definition? uri i = some l →
      l.uri = uri ∧
      (∃ g j, (ofText text).code[i]? = some g ∧ isBracket g ∧
        CoversOnly text l.range j (mirrorGlyph g)) ∧
      ∃ j l', (ofText text).index? l.range.start = some j ∧
        (ofText text).definition? uri j = some l' ∧ l'.range.start = p) ∧
    (ofText text).readDefinition? uri i = some ((ofText text).definition? uri i) ∧
    (ofText text).readHover? i = some ((ofText text).hover? i) := by
  have hposition := ((ordered_ofText hsize).index?_eq_some_iff.mp hi).1
  have hlt := lt_of_getElem? hposition
  refine ⟨?_, ?_, readDefinition?_eq hlt uri, readHover?_eq hlt⟩
  · constructor
    · intro ⟨l, hl⟩
      obtain ⟨j, hpartner, -⟩ := definition?_eq_some_iff.mp hl
      exact ⟨j, hpartner⟩
    · intro ⟨j, hpartner⟩
      exact ⟨_, definition?_eq_some_iff.mpr ⟨j, hpartner, rfl⟩⟩
  · intro l hl
    obtain ⟨j, hpartner, rfl⟩ := definition?_eq_some_iff.mp hl
    obtain ⟨b, hbracket, hglyph, hother⟩ := hpartner.mirrored
    have hisBracket : isBracket b.glyph := isBracket_iff.mpr ⟨b, hbracket, rfl⟩
    -- The partner is an instruction again, so its range and its place are its own.
    obtain ⟨b', -, hb'⟩ := isBracket_iff.mp ((isBracket_mirrorGlyph b.glyph).trans hisBracket)
    have hcode := code_ofText text ▸ hother.trans (congrArg some hb')
    refine ⟨rfl, ⟨b.glyph, j, hglyph, hisBracket, ?_⟩, j, _, index?_position_of_glyph hsize hcode,
      definition?_eq_some_iff.mpr ⟨i, hpartner.symm, rfl⟩, position_of_getElem? hposition⟩
    rw [hb']
    exact coversOnly_characterRange hsize hcode

/--
In `𝄞{` and, on the next line, `}`: the opener is the fifth byte of the program and the third unit
of its line.  It leads to the start of the second line, which is the closer's place and leads back.
-/
theorem definition_is_involution_behind_clef :
    let text : Bytes := [0xF0, 0x9D, 0x84, 0x9E, 0x7B, 0x0D, 0x0A, 0x7D]
    let l : Location := ⟨"a", ⟨⟨1, 0⟩, ⟨1, 1⟩⟩⟩
    (ofText text).index? ⟨0, 2⟩ = some 4 ∧ (ofText text).definition? "a" 4 = some l ∧
      (∃ g j, (ofText text).code[4]? = some g ∧ isBracket g ∧
        CoversOnly text l.range j (mirrorGlyph g)) ∧
      (∃ j l', (ofText text).index? ⟨1, 0⟩ = some j ∧
        (ofText text).definition? "a" j = some l' ∧ l'.range.start = ⟨0, 2⟩) ∧
      ∃ h, (ofText text).readHover? 4 = some (some h) := by
  intro text l
  have hindex : (ofText text).index? ⟨0, 2⟩ = some 4 := by decide
  have hdefinition : (ofText text).definition? "a" 4 = some l := by decide +kernel
  obtain ⟨-, hback, -, hhover⟩ := definition_is_involution text (by decide) "a" ⟨0, 2⟩ 4 hindex
  obtain ⟨-, hcovers, hround⟩ := hback l hdefinition
  exact ⟨hindex, hdefinition, hcovers, hround, _, hhover⟩

end Document

end TimeTape
