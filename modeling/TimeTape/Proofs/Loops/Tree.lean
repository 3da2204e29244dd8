/-
Programs as trees of loops.

The engine sees a program as a row of bytes and finds its way through the brackets by jumping.
A `Tree` is the same program as its author means it: bytes that act on the memory, and loops
around smaller programs.  `Tree.flatten` writes a tree down, and `Tree.Runs` says what it does,
without a pointer into the text: a loop is passed over if the cell is zero, and otherwise its body
is repeated, once at least, as the closing bracket decides.

The last part ties the two views together.  In a program that contains the text of a tree, the
scan pairs the brackets of every loop of the tree with each other.
-/
import TimeTape.Proofs.Brackets
import TimeTape.Machine.Step

namespace TimeTape.Loops

/-! ### Syntax -/

/-- The instructions that make the engine jump, turn around or schedule something. -/
def leaping : List Instruction :=
  [.opener, .closer, .reverse, .erase, .jump, .wait, .persist]

/-- A byte that acts on nothing but the memory and the output. -/
def PlainByte : Type :=
  { b : UInt8 // ∀ i ∈ leaping, b ≠ i.glyph }

/-- A sequence of plain bytes and loops. -/
inductive Tree where
  | done
  | byte (b : PlainByte) (rest : Tree)
  | loop (body rest : Tree)

/-- A tree as the text of a program. -/
def Tree.flatten : Tree → Bytes
  | .done => []
  | .byte b rest => b.1 :: rest.flatten
  | .loop body rest =>
    Instruction.opener.glyph :: body.flatten ++ Instruction.closer.glyph :: rest.flatten

theorem Tree.length_flatten_byte (b : PlainByte) (rest : Tree) (i : Nat) :
    i + (Tree.byte b rest).flatten.length = i + 1 + rest.flatten.length := by
  rw [flatten, List.length_cons]
  omega

theorem Tree.length_flatten_loop (body rest : Tree) (i : Nat) :
    i + (Tree.loop body rest).flatten.length
      = i + 1 + body.flatten.length + 1 + rest.flatten.length := by
  rw [flatten, List.cons_append, List.length_cons, List.length_append, List.length_cons]
  omega

/-! ### Meaning -/

/-- What a tree acts on. -/
structure Store where
  cells : List UInt8
  mp : Nat
  output : Bytes
  deriving DecidableEq

namespace Store

/-- One zero cell and no output. -/
def blank : Store :=
  ⟨[0], 0, []⟩

/-- The current cell. -/
def cell (s : Store) : UInt8 :=
  s.cells.getD s.mp 0

/-- What a byte does. -/
def after (s : Store) (b : UInt8) : Store :=
  if b = Instruction.plus.glyph then
    { s with cells := s.cells.set s.mp (s.cell + 1) }
  else if b = Instruction.move.glyph then
    { s with
      mp := s.mp + 1
      cells := if s.mp + 1 < s.cells.length then s.cells else s.cells ++ [0] }
  else if b = Instruction.io.glyph then
    { s with output := s.output ++ String.utf8EncodeChar (Char.ofNat s.cell.toNat) }
  else s

theorem mp_after (s : Store) (b : UInt8) :
    (s.after b).mp = if b = Instruction.move.glyph then s.mp + 1 else s.mp := by
  unfold after
  by_cases hplus : b = Instruction.plus.glyph
  · subst hplus
    rfl
  · rw [if_neg hplus]
    by_cases hmove : b = Instruction.move.glyph
    · rw [if_pos hmove, if_pos hmove]
    · rw [if_neg hmove, if_neg hmove]
      split <;> rfl

end Store

/-- Running something once, and then again as long as the cell it leaves says so. -/
inductive Repeats (again : UInt8 → Bool) (body : Store → Store → Prop) : Store → Store → Prop
  | last {s s' : Store} (run : body s s') (stop : again s'.cell = false) :
      Repeats again body s s'
  | more {s s₁ s' : Store} (run : body s s₁) (go : again s₁.cell = true)
      (rest : Repeats again body s₁ s') : Repeats again body s s'

/-- Whether a loop is run again when the current cell is `c` at the end of its body. -/
def goesOn (onNonZero : Bool) (c : UInt8) : Bool :=
  if onNonZero then c ≠ 0 else c = 0

/-- Running the tree takes the store `s` to the store `s'`. -/
def Tree.Runs (onNonZero : Bool) : Tree → Store → Store → Prop
  | .done, s, s' => s' = s
  | .byte b rest, s, s' => rest.Runs onNonZero (s.after b.1) s'
  | .loop body rest, s, s' =>
    if s.cell = 0 then rest.Runs onNonZero s s'
    else ∃ s₁, Repeats (goesOn onNonZero) (body.Runs onNonZero) s s₁ ∧ rest.Runs onNonZero s₁ s'

/-! ### The text of a tree in a program -/

/-- The text of a tree stands in the program, from index `i` on. -/
def WrittenAt (code : Bytes) (i : Nat) (t : Tree) : Prop :=
  ∃ front back, code = front ++ t.flatten ++ back ∧ front.length = i

theorem writtenAt_self (t : Tree) : WrittenAt t.flatten 0 t :=
  ⟨[], [], by simp, rfl⟩

theorem lt_of_byte {code : Bytes} {i : Nat} {b : UInt8} (h : code[i]? = some b) :
    i < code.length :=
  (List.getElem?_eq_some_iff.mp h).1

section Written

variable {code : Bytes} {i : Nat} {b : PlainByte} {body rest : Tree}

theorem WrittenAt.byte (h : WrittenAt code i (.byte b rest)) :
    code[i]? = some b.1 ∧ WrittenAt code (i + 1) rest := by
  obtain ⟨front, back, rfl, rfl⟩ := h
  refine ⟨by simp [Tree.flatten], front ++ [b.1], back, ?_, by simp⟩
  simp [Tree.flatten]

theorem WrittenAt.loop (h : WrittenAt code i (.loop body rest)) :
    code[i]? = some Instruction.opener.glyph ∧ WrittenAt code (i + 1) body ∧
      code[i + 1 + body.flatten.length]? = some Instruction.closer.glyph ∧
      WrittenAt code (i + 1 + body.flatten.length + 1) rest := by
  obtain ⟨front, back, rfl, rfl⟩ := h
  refine ⟨by simp [Tree.flatten], ?_, ?_, ?_⟩
  · refine ⟨front ++ [Instruction.opener.glyph],
      Instruction.closer.glyph :: rest.flatten ++ back, ?_, by simp⟩
    simp [Tree.flatten]
  · have hsplit : front ++ (Tree.loop body rest).flatten ++ back
        = (front ++ Instruction.opener.glyph :: body.flatten)
          ++ Instruction.closer.glyph :: (rest.flatten ++ back) := by
      simp [Tree.flatten]
    rw [hsplit, List.getElem?_append_right (by simp; omega)]
    simp [show front.length + 1 + body.flatten.length
      - (front.length + (body.flatten.length + 1)) = 0 by omega]
  · refine ⟨front ++ Instruction.opener.glyph :: body.flatten ++ [Instruction.closer.glyph],
      back, ?_, by simp; omega⟩
    simp [Tree.flatten]

end Written

/-! ### The scan pairs the brackets of a loop -/

open Pairing

theorem next_plain (s : Scan) (b : PlainByte) : s.next b.1 = { s with index := s.index + 1 } := by
  have ho : b.1 ≠ Instruction.opener.glyph := b.2 .opener (by simp [leaping])
  have hc : b.1 ≠ Instruction.closer.glyph := b.2 .closer (by simp [leaping])
  exact s.next_other ho hc

/-- The text of a tree closes every loop it opens, and no other. -/
theorem waiting_flatten (t : Tree) :
    ∀ s : Scan, (t.flatten.foldl Scan.next s).waiting = s.waiting := by
  induction t with
  | done => intro s; rfl
  | byte b rest ih =>
      intro s
      rw [Tree.flatten, List.foldl_cons, ih, next_plain]
  | loop body rest ihBody ihRest =>
      intro s
      rw [Tree.flatten, List.cons_append, List.foldl_cons, List.foldl_append, List.foldl_cons, ihRest,
        Scan.next_opener]
      have hbody := ihBody { s with index := s.index + 1, waiting := s.index :: s.waiting }
      rw [Scan.next_closer hbody]

/-- The brackets of a loop are each other's partners, wherever the loop is written. -/
theorem WrittenAt.pair {code : Bytes} {i : Nat} {body rest : Tree}
    (h : WrittenAt code i (.loop body rest)) :
    (i, i + 1 + body.flatten.length) ∈ (scan code).pairs := by
  obtain ⟨front, back, rfl, rfl⟩ := h
  have hsplit : front ++ (Tree.loop body rest).flatten ++ back
      = front ++ (Instruction.opener.glyph :: (body.flatten
        ++ (Instruction.closer.glyph :: (rest.flatten ++ back)))) := by
    simp [Tree.flatten]
  rw [hsplit]
  exact mem_pairs_of_waiting (waiting_flatten body) front (rest.flatten ++ back)

end TimeTape.Loops
