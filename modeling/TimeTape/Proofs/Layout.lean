/-
The program of a document is its text without the line breaks.

The editor's side walks over the characters of a text and the engine's side drops bytes from it.
They agree because a line break is a single plain byte, which is never a part of a longer
character.  So the index of a byte means the same to both, and every index has a place.
-/
import TimeTape.Proofs.Utf8
import TimeTape.Text.Lines
import TimeTape.Document

namespace TimeTape

open Utf8

/-- A plain byte in the piece is the whole piece. -/
def Utf8.Piece.Clean (p : Piece) : Prop :=
  ∀ b ∈ p.bytes, b.toNat < 0x80 → p = .char (Char.ofNat b.toNat)

/-- Without its line breaks, a piece is gone or unchanged. -/
theorem joinLines_bytes {p : Piece} (hp : p.Clean) :
    Text.joinLines p.bytes = if p = .char '\n' ∨ p = .char '\r' then [] else p.bytes := by
  split
  · rename_i hbreak
    rcases hbreak with rfl | rfl <;> rfl
  · rename_i hother
    refine List.filter_eq_self.mpr fun b hb => ?_
    rw [Bool.not_eq_true', Text.isLineBreak, Bool.or_eq_false_iff, decide_eq_false_iff_not,
      decide_eq_false_iff_not]
    constructor
    · rintro rfl
      exact hother (Or.inl (hp _ hb (by decide)))
    · rintro rfl
      exact hother (Or.inr (hp _ hb (by decide)))

theorem map_fst_layout (pieces : List Piece) (h : ∀ p ∈ pieces, p.Clean) :
    ∀ place, (layout place pieces).map Prod.fst = Text.joinLines (encode pieces) := by
  induction pieces with
  | nil => intro place; rfl
  | cons piece rest ih =>
      intro place
      have hpiece := joinLines_bytes (h piece (by simp))
      have hrest := ih (fun p hp => h p (by simp [hp]))
      have hjoin : Text.joinLines (encode (piece :: rest))
          = Text.joinLines piece.bytes ++ Text.joinLines (encode rest) := by
        simp [Text.joinLines, encode]
      rw [hjoin, hpiece, layout]
      by_cases hfeed : piece = .char '\n'
      · rw [if_pos (by simp [Piece.isLineFeed, hfeed]), if_pos (Or.inl hfeed)]
        exact hrest _
      by_cases hreturn : piece = .char '\r'
      · rw [if_pos (Or.inr hreturn), if_pos hreturn]
        split <;> exact hrest _
      · rw [if_neg (by simp [Piece.isLineFeed, Piece.isLoneReturn, hfeed, hreturn]),
          if_neg hreturn, if_neg (by simp [hfeed, hreturn]), List.map_append, List.map_map, hrest]
        congr 1
        exact List.map_id _

namespace Document

/-- The bytes that are laid out are those that remain without the line breaks. -/
theorem code_ofText (text : Bytes) : (ofText text).code = Text.joinLines text := by
  have hclean : ∀ p ∈ decode text, p.Clean := fun p hp b hb hlt => eq_char_of_mem_bytes hp hb hlt
  show (layout {} (decode text)).map Prod.fst = _
  rw [map_fst_layout _ hclean, encode_decode]

theorem program_ofText (text : Bytes) :
    (ofText text).program = Program.ofBytes (Text.joinLines text) := by
  rw [← code_ofText]
  rfl

theorem size_positions (text : Bytes) :
    (ofText text).positions.size = (Text.joinLines text).length := by
  rw [← code_ofText]
  simp [ofText]

/-- The range of a character of the program starts at its place. -/
theorem getElem?_positions {d : Document} {i : Nat} (hi : i < d.positions.size) :
    d.positions[i]? = some (d.characterRange i).start := by
  rw [Array.getElem?_eq_getElem hi]
  simp [characterRange, position, Array.getD, hi]

/--
**A document holds the program that the engine runs.**  Whatever bytes the text consists of, well
formed or not, and however its lines are broken, the document has the code that is loaded from the
text, with a place for each byte of it and for nothing else.
-/
theorem document_holds_loaded_program (text : Bytes) :
    (ofText text).code = Text.joinLines text ∧
      (ofText text).program = Program.ofBytes (Text.joinLines text) ∧
      (ofText text).positions.size = (ofText text).code.length := by
  refine ⟨code_ofText text, program_ofText text, ?_⟩
  rw [code_ofText]
  exact size_positions text

-- A broken character, a return before a line feed and one by itself.
example : (ofText [0xE2, 0x82, 0x0D, 0x0A, 0x2B, 0x0D, 0x2E]).code = [0xE2, 0x82, 0x2B, 0x2E] := by
  decide

end Document

end TimeTape
