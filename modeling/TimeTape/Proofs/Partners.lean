/-
The partner that an editor shows is where the engine jumps.

Both look a bracket up in the same table, but they do not look in the same way.  The engine tells a
bracket that is not on file from one that has no partner, while the editor reads an entry without
asking whether there is one, so that a missing bracket would show the first byte of the program as
its partner.  They agree because nothing is ever missing: every image has its own pairing, whose
tables are filed under exactly the openers and the closers of that image.  Mirroring turns brackets
around, so the table in which a bracket is looked up depends on the direction, but it moves none and
adds none.
-/
import TimeTape.Proofs.Layout
import TimeTape.Proofs.Nesting
import TimeTape.Proofs.Pointers

namespace TimeTape

/-! ### Brackets in both images -/

theorem isBracket_iff {g : UInt8} :
    isBracket g ↔ ∃ b : Instruction, b.isBracket ∧ g = b.glyph := by
  unfold isBracket
  rw [Option.any_eq_true]
  constructor
  · intro ⟨b, hb, hbracket⟩
    exact ⟨b, hbracket, Instruction.ofGlyph?_eq_some_iff.mp hb⟩
  · intro ⟨b, hbracket, hglyph⟩
    exact ⟨b, Instruction.ofGlyph?_eq_some_iff.mpr hglyph, hbracket⟩

theorem isBracket_mirrorGlyph (g : UInt8) : isBracket (mirrorGlyph g) = isBracket g := by
  unfold mirrorGlyph
  by_cases ho : g = Instruction.opener.glyph
  · rw [if_pos ho, ho]
    rfl
  · rw [if_neg ho]
    by_cases hc : g = Instruction.closer.glyph
    · rw [if_pos hc, hc]
      rfl
    · rw [if_neg hc]

/-- The program reads differently in the two directions, but has its brackets in the same places. -/
theorem Program.exists_bracket_text {code : Bytes} {i : Nat} {g : UInt8} (hg : code[i]? = some g)
    (d : Direction) :
    ∃ g', (Program.text code d)[i]? = some g' ∧ isBracket g' = isBracket g := by
  cases d with
  | forward => exact ⟨g, hg, rfl⟩
  | reverse =>
      refine ⟨mirrorGlyph g, ?_, isBracket_mirrorGlyph g⟩
      show (mirror code)[i]? = _
      rw [mirror, List.getElem?_map, hg]
      rfl

/-! ### What is on file -/

/-- The table of a pairing in which a kind of bracket is filed. -/
def Pairing.table (t : Pairing) : Instruction → Std.TreeMap Int Partner
  | .closer => t.backward
  | _ => t.forward

/-- The bracket `b` stands at an index of a program and is filed there with the partner `p`. -/
structure FiledWith (code : Bytes) (b : Instruction) (i : Nat) (p : Partner) : Prop where
  bracket : b.isBracket
  glyph : code[i]? = some b.glyph
  filed : ((Pairing.ofBytes code).table b)[(i : Int)]? = some p

namespace Pairing

variable {code : Bytes} {b : Instruction} {i : Nat}

/-- A bracket is never missing from the table in which it is looked up. -/
theorem exists_filedWith (hb : b.isBracket) (hglyph : code[i]? = some b.glyph) :
    ∃ p, FiledWith code b i p := by
  cases b with
  | opener =>
      obtain ⟨p, hp⟩ := forward_of_opener hglyph
      exact ⟨p, rfl, hglyph, hp⟩
  | closer =>
      obtain ⟨p, hp⟩ := backward_of_closer hglyph
      exact ⟨p, rfl, hglyph, hp⟩
  | _ => simp [Instruction.isBracket] at hb

end Pairing

/-- Two brackets of a program that belong together, whichever of them comes first. -/
def Partnered (code : Bytes) (i j : Nat) : Prop :=
  Encloses code i j ∨ Encloses code j i

theorem Partnered.symm {code : Bytes} {i j : Nat} (h : Partnered code i j) : Partnered code j i :=
  Or.symm h

/-- The brackets of a pair are of opposite kinds. -/
theorem Partnered.mirrored {code : Bytes} {i j : Nat} (h : Partnered code i j) :
    ∃ b : Instruction, b.isBracket ∧ code[i]? = some b.glyph ∧
      code[j]? = some (mirrorGlyph b.glyph) := by
  rcases h with h | h
  · exact ⟨.opener, rfl, h.opener, h.closer⟩
  · exact ⟨.closer, rfl, h.closer, h.opener⟩

/-- A bracket is filed with a partner exactly when the two belong together. -/
theorem exists_filedWith_iff {code : Bytes} {i : Nat} {target : Int} :
    (∃ b, FiledWith code b i (some target)) ↔ ∃ j : Nat, target = j ∧ Partnered code i j := by
  constructor
  · rintro ⟨b, hbracket, -, hfiled⟩
    cases b with
    | opener =>
        obtain ⟨a, j, hi, hj, h⟩ := Pairing.forward_iff_encloses.mp hfiled
        obtain rfl : i = a := Int.ofNat.inj hi
        exact ⟨j, hj, Or.inl h⟩
    | closer =>
        obtain ⟨j, a, hj, hi, h⟩ := Pairing.backward_iff_encloses.mp hfiled
        obtain rfl : i = a := Int.ofNat.inj hi
        exact ⟨j, hj, Or.inr h⟩
    | _ => simp [Instruction.isBracket] at hbracket
  · rintro ⟨j, rfl, h | h⟩
    · exact ⟨.opener, rfl, h.opener, Pairing.forward_iff_encloses.mpr ⟨i, j, rfl, rfl, h⟩⟩
    · exact ⟨.closer, rfl, h.closer, Pairing.backward_iff_encloses.mpr ⟨j, i, rfl, rfl, h⟩⟩

/-! ### What the editor shows -/

namespace Image

/-- Inside an image, what is read is what stands there. -/
theorem glyphAt_ofBytes {code : Bytes} {i : Nat} {g : UInt8} (hg : code[i]? = some g) :
    (Image.ofBytes code).glyphAt i = g := by
  unfold Image.glyphAt
  rw [if_neg (by omega), Int.toNat_natCast]
  simp [Image.ofBytes, Array.getD_eq_getD_getElem?, hg]

/-- What an image reads as an instruction stands in it. -/
theorem getElem?_of_glyphAt {code : Bytes} {i : Nat} {b : Instruction}
    (h : Instruction.ofGlyph? ((Image.ofBytes code).glyphAt i) = some b) :
    code[i]? = some b.glyph := by
  have hglyph := Instruction.ofGlyph?_eq_some_iff.mp h
  cases hg : code[i]? with
  | some g => rw [← hglyph, glyphAt_ofBytes hg]
  | none =>
      -- Outside the image every byte reads as zero, and no instruction is written so.
      exfalso
      have hzero : (Image.ofBytes code).glyphAt i = 0 := by
        unfold Image.glyphAt
        rw [if_neg (by omega), Int.toNat_natCast]
        simp [Image.ofBytes, Array.getD_eq_getD_getElem?, hg]
      rw [hzero] at hglyph
      cases b <;> exact absurd hglyph (by decide)

end Image

namespace Document

variable {text : Bytes} {d : Direction} {i : Nat}

theorem image_ofText (text : Bytes) (d : Direction) :
    (ofText text).program.image d = Image.ofBytes (Program.text (Text.joinLines text) d) := by
  rw [program_ofText, Program.image_ofBytes]

/-- At a bracket the editor reads its entry, and the entry exists. -/
theorem partner?_of_filedWith {b : Instruction} {p : Partner}
    (h : FiledWith (Program.text (Text.joinLines text) d) b i p) :
    (ofText text).partner? d i = some p := by
  obtain ⟨hbracket, hglyph, hfiled⟩ := h
  unfold partner?
  simp only [image_ofText, Image.glyphAt_ofBytes hglyph]
  rw [Pairing.entry?, Instruction.ofGlyph?_glyph]
  cases b with
  | opener =>
      show some ((Pairing.ofBytes _).forward.getD (i : Int) (some 0)) = some p
      rw [Std.TreeMap.getD_eq_getD_getElem?]
      exact congrArg (fun e => some (e.getD (some 0))) hfiled
  | closer =>
      show some ((Pairing.ofBytes _).backward.getD (i : Int) (some 0)) = some p
      rw [Std.TreeMap.getD_eq_getD_getElem?]
      exact congrArg (fun e => some (e.getD (some 0))) hfiled
  | _ => simp [Instruction.isBracket] at hbracket

/-- What the editor shows as a bracket is one, and what it shows of it is on file. -/
theorem filedWith_of_partner? {p : Partner} (h : (ofText text).partner? d i = some p) :
    ∃ b, FiledWith (Program.text (Text.joinLines text) d) b i p := by
  have hcode : ∃ b : Instruction, b.isBracket ∧
      (Program.text (Text.joinLines text) d)[i]? = some b.glyph := by
    unfold partner? Pairing.entry? at h
    simp only [image_ofText] at h
    split at h
    · rename_i hopener
      exact ⟨.opener, rfl, Image.getElem?_of_glyphAt hopener⟩
    · rename_i hcloser
      exact ⟨.closer, rfl, Image.getElem?_of_glyphAt hcloser⟩
    · cases h
  obtain ⟨b, hbracket, hglyph⟩ := hcode
  obtain ⟨q, hq⟩ := Pairing.exists_filedWith hbracket hglyph
  have hsame : q = p := Option.some.inj ((partner?_of_filedWith hq).symm.trans h)
  exact ⟨b, hsame ▸ hq⟩

/-- The editor shows a partner exactly for a bracket that belongs together with another one. -/
theorem partner?_eq_partner_iff {target : Int} :
    (ofText text).partner? d i = some (some target) ↔
      ∃ j : Nat, target = j ∧ Partnered (Program.text (Text.joinLines text) d) i j := by
  rw [← exists_filedWith_iff]
  constructor
  · intro h
    exact filedWith_of_partner? h
  · intro ⟨b, hb⟩
    exact partner?_of_filedWith hb

/-- The editor shows a bracket exactly where one stands. -/
theorem isSome_partner?_iff {g : UInt8} (hg : (Text.joinLines text)[i]? = some g) :
    ((ofText text).partner? d i).isSome ↔ isBracket g := by
  obtain ⟨g', hg', hbracket⟩ := Program.exists_bracket_text hg d
  rw [← hbracket, isBracket_iff, Option.isSome_iff_exists]
  constructor
  · intro ⟨p, hp⟩
    obtain ⟨b, hb⟩ := filedWith_of_partner? hp
    exact ⟨b, hb.bracket, Option.some.inj (hg'.symm.trans hb.glyph)⟩
  · rintro ⟨b, hb, rfl⟩
    obtain ⟨p, hp⟩ := Pairing.exists_filedWith hb hg'
    exact ⟨p, partner?_of_filedWith hp⟩

end Document

/-! ### Where the engine jumps -/

namespace Machine

variable {code : Bytes} {m : Machine} {b : Instruction} {i : Nat} {p : Partner}

/-- The machine with its tape made long enough for its memory pointer. -/
def reaching (m : Machine) : Machine :=
  { m with tape := m.tape.extend m.mp.toNat }

/-- A cell past the end of the tape reads as zero, and reading it makes the tape longer. -/
theorem withCell_of_nonneg (h : 0 ≤ m.mp) (next : UInt8 → Machine → Machine × Option Fault) :
    m.withCell next = next m.cell m.reaching := by
  have hread : m.tape.read? m.mp = some (m.cell, m.tape.extend m.mp.toNat) := by
    rw [cell, ← Tape.read?_natCast, Int.toNat_of_nonneg h]
  unfold withCell
  rw [hread]
  rfl

theorem jump_of_nonneg (h : 0 ≤ m.mp) (hb : b.isBracket) (hjump : m.takesJump b) :
    m.jump b.glyph = m.reaching.follow b.glyph (m.bracketTable b) := by
  unfold jump
  rw [withCell_of_nonneg h, Instruction.ofGlyph?_glyph]
  cases b with
  | opener =>
      have hcell : m.cell = 0 := by simpa [takesJump] using hjump
      simp only [hcell, if_true]
      rfl
  | closer =>
      have hback : if m.options.repeatOnNonZero then m.cell ≠ 0 else m.cell = 0 := by
        simpa [takesJump] using hjump
      exact if_pos hback
  | _ => simp [Instruction.isBracket] at hb

/-- The table that a machine looks a bracket up in is that of the image it reads. -/
theorem bracketTable_eq (hprogram : m.program = Program.ofBytes code) (b : Instruction) :
    m.bracketTable b = (Pairing.ofBytes (Program.text code m.direction)).table b := by
  have himage : m.image = Image.ofBytes (Program.text code m.direction) := by
    rw [image, hprogram, Program.image_ofBytes]
  unfold bracketTable Pairing.table
  rw [himage]
  cases b <;> rfl

section Jump

variable (hprogram : m.program = Program.ofBytes code) (hip : m.ip = i) (hmp : 0 ≤ m.mp)
  (hjump : m.takesJump b)

include hprogram hip hmp hjump

theorem jump_to_partner {target : Int}
    (hfiled : FiledWith (Program.text code m.direction) b i (some target)) :
    ∃ m', m.jump b.glyph = (m', none) ∧ m'.ip = target := by
  have hlookup : (m.bracketTable b)[m.reaching.ip]? = some (some target) := by
    rw [bracketTable_eq hprogram]
    exact hip ▸ hfiled.filed
  rw [jump_of_nonneg hmp hfiled.bracket hjump]
  unfold follow
  rw [hlookup]
  exact ⟨_, rfl, rfl⟩

theorem jump_without_partner
    (hfiled : FiledWith (Program.text code m.direction) b i none) :
    ∃ m', m.jump b.glyph = (m', some (.paradox (.unmatched b.glyph i m.direction))) ∧
      m'.ip = i := by
  have hlookup : (m.bracketTable b)[m.reaching.ip]? = some none := by
    rw [bracketTable_eq hprogram]
    exact hip ▸ hfiled.filed
  rw [jump_of_nonneg hmp hfiled.bracket hjump]
  unfold follow
  rw [hlookup, ← hip]
  exact ⟨_, rfl, rfl⟩

end Jump

/-- A machine at a bracket of its image reads the bracket that is on file there. -/
theorem eq_of_filedWith {b' : Instruction} (hprogram : m.program = Program.ofBytes code)
    (hip : m.ip = i) (hfiled : FiledWith (Program.text code m.direction) b' i p)
    (hglyph : m.glyphAt m.ip = b.glyph) : b' = b := by
  rw [glyphAt, image, hprogram, Program.image_ofBytes, hip,
    Image.glyphAt_ofBytes hfiled.glyph] at hglyph
  have hsome := Instruction.ofGlyph?_eq_some_iff.mpr hglyph
  rw [Instruction.ofGlyph?_glyph] at hsome
  exact Option.some.inj hsome

end Machine

namespace Document

/--
**The partner that an editor shows is where the engine jumps.**  At an index of the program of a
text, and for either direction, a partner is shown exactly if the byte there is a bracket.  A
machine with that program that stands at the index, travels in the direction and finds the cell it
jumps on goes to the partner that is shown.  If none is shown the machine fails, since the bracket
is unmatched, and stays where it is.  The partner of a partner is the bracket itself.
-/
theorem partner_is_jump_target (text : Bytes) (d : Direction) (i : Nat) (g : UInt8)
    (hg : (ofText text).code[i]? = some g) :
    (((ofText text).partner? d i).isSome ↔ isBracket g) ∧
    ∀ p, (ofText text).partner? d i = some p →
      (∀ (m : Machine) (b : Instruction),
        m.program = Program.ofBytes (Text.joinLines text) → m.direction = d → m.ip = i →
        0 ≤ m.mp → m.glyphAt m.ip = b.glyph → m.takesJump b →
        (∀ target, p = some target → ∃ m', m.jump b.glyph = (m', none) ∧ m'.ip = target) ∧
        (p = none → ∃ m',
          m.jump b.glyph = (m', some (.paradox (.unmatched b.glyph i d))) ∧ m'.ip = i)) ∧
      ∀ target, p = some target →
        ∃ j : Nat, target = j ∧ (ofText text).partner? d j = some (some (i : Int)) := by
  rw [code_ofText] at hg
  refine ⟨isSome_partner?_iff hg, ?_⟩
  intro p hp
  constructor
  · intro m b hprogram hdirection hip hmp hglyph hjump
    subst hdirection
    obtain ⟨b', hfiled⟩ := filedWith_of_partner? hp
    obtain rfl := Machine.eq_of_filedWith hprogram hip hfiled hglyph
    constructor
    · intro target htarget
      subst htarget
      exact Machine.jump_to_partner hprogram hip hmp hjump hfiled
    · intro hnone
      subst hnone
      exact Machine.jump_without_partner hprogram hip hmp hjump hfiled
  · intro target htarget
    subst htarget
    obtain ⟨j, hj, hpartner⟩ := partner?_eq_partner_iff.mp hp
    exact ⟨j, hj, partner?_eq_partner_iff.mpr ⟨i, rfl, hpartner.symm⟩⟩

/--
The brackets of `}` and `{` on two lines belong together only in reverse.  A machine there that has
gone past the end of its tape jumps from the first to the second, which has the first as its
partner, and a machine that runs forward fails at the first.
-/
theorem partner_is_jump_target_across_lines :
    let text : Bytes := [0x7D, 0x0D, 0x0A, 0x7B]
    let m : Machine := { program := Program.ofBytes [0x7D, 0x7B], options := {}, mp := 4 }
    (∃ m', { m with direction := .reverse }.jump 0x7B = (m', none) ∧ m'.ip = 1) ∧
    (ofText text).partner? .reverse 1 = some (some 0) ∧
    ∃ m', m.jump 0x7D = (m', some (.paradox (.unmatched 0x7D 0 .forward))) ∧ m'.ip = 0 := by
  intro text m
  have hreverse := (partner_is_jump_target text .reverse 0 0x7D (by decide)).2 (some 1)
    (by decide +kernel)
  have hforward := (partner_is_jump_target text .forward 0 0x7D (by decide)).2 none
    (by decide +kernel)
  refine ⟨?_, ?_, ?_⟩
  · exact (hreverse.1 { m with direction := .reverse } .opener rfl rfl rfl (by decide) (by decide)
      (by decide)).1 1 rfl
  · obtain ⟨j, hj, hback⟩ := hreverse.2 1 rfl
    obtain rfl : 1 = j := Int.ofNat.inj hj
    exact hback
  · exact (hforward.1 m .closer rfl rfl rfl (by decide) (by decide) (by decide)).2 rfl

end Document

end TimeTape
