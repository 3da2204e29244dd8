/-
Cutting, trimming and reading texts.

White space is dropped from both ends of a text, character by character, and a number is read digit
by digit.  What comes of it can be said without these steps.  A text is some white space, what is
left of it, and some white space again.  A number is read from a text exactly when the text is an
optional sign with decimal digits behind it, and the number that these stand for fits in a word.
-/
import TimeTape.Text.Blank
import TimeTape.Text.Number
import TimeTape.Proofs.Utf8
import Mathlib.Data.List.DropRight

namespace TimeTape

namespace Text

/-! ### Pieces of a text -/

/-- No piece of a list contains the element at which the list is cut. -/
theorem not_mem_of_mem_splitOn {α : Type} [BEq α] [LawfulBEq α] {separator : α} {s piece : List α}
    (h : piece ∈ s.splitOn separator) : separator ∉ piece := by
  induction s generalizing piece with
  | nil =>
      rw [List.splitOn_nil, List.mem_singleton] at h
      rw [h]
      exact List.not_mem_nil
  | cons x rest ih =>
      rw [List.splitOn_cons_eq_if_modifyHead] at h
      split at h
      · rcases List.mem_cons.mp h with rfl | h
        · exact List.not_mem_nil
        · exact ih h
      · rename_i hx
        cases hrest : rest.splitOn separator with
        | nil => exact absurd hrest (List.splitOn_ne_nil separator rest)
        | cons first more =>
            rw [hrest] at h ih
            rcases List.mem_cons.mp h with rfl | h
            · rw [List.mem_cons, not_or]
              exact ⟨fun hc => hx (beq_iff_eq.mpr hc.symm), ih List.mem_cons_self⟩
            · exact ih (List.mem_cons_of_mem first h)

/-! ### Characters of one byte -/

section OneByte

variable {c : Char}

theorem toNat_byte (h : c.toNat < 128) : (UInt8.ofNat c.toNat).toNat = c.toNat := by
  rw [UInt8.toNat_ofNat']
  exact Nat.mod_eq_of_lt (by omega)

theorem utf8EncodeChar_of_lt (h : c.toNat < 128) :
    String.utf8EncodeChar c = [UInt8.ofNat c.toNat] := by
  have hspelled := Utf8.utf8EncodeChar_one ((toNat_byte h).symm ▸ h)
  rwa [toNat_byte h, Char.ofNat_toNat] at hspelled

/-- The byte of such a character stands for nothing else. -/
theorem mem_of_byte_mem {chars : List Char} (h : c.toNat < 128)
    (hbyte : UInt8.ofNat c.toNat ∈ chars.flatMap String.utf8EncodeChar) : c ∈ chars := by
  obtain ⟨c', hc', hmem⟩ := List.mem_flatMap.mp hbyte
  have heq : c'.toNat = c.toNat :=
    (Utf8.eq_of_mem_utf8EncodeChar hmem ((toNat_byte h).symm ▸ h)).trans (toNat_byte h)
  rwa [← Char.ofNat_toNat c, ← heq, Char.ofNat_toNat]

end OneByte

/-! ### White space around a text -/

/-- The text is made of white space only. -/
def Blank (s : Bytes) : Prop :=
  ∃ chars : List Char, (∀ c ∈ chars, isBlank c = true) ∧ s = chars.flatMap String.utf8EncodeChar

theorem Blank.append {a b : Bytes} (ha : Blank a) (hb : Blank b) : Blank (a ++ b) := by
  obtain ⟨front, hfront, rfl⟩ := ha
  obtain ⟨back, hback, rfl⟩ := hb
  exact ⟨front ++ back, List.forall_mem_append.mpr ⟨hfront, hback⟩, List.flatMap_append.symm⟩

section TrimBy

variable {α : Type} (blank : α → Bool)

theorem trimBy_eq_rdropWhile (s : List α) : trimBy blank s = (s.dropWhile blank).rdropWhile blank :=
  rfl

/-- Nothing but blank elements is dropped. -/
theorem exists_trimBy (s : List α) :
    ∃ before after, (∀ x ∈ before ++ after, blank x = true) ∧
      s = before ++ trimBy blank s ++ after := by
  refine ⟨s.takeWhile blank, (s.dropWhile blank).rtakeWhile blank, ?_, ?_⟩
  · intro x hx
    rcases List.mem_append.mp hx with hbefore | hafter
    · exact List.mem_takeWhile_imp hbefore
    · exact List.mem_rtakeWhile_imp hafter
  · rw [trimBy_eq_rdropWhile, List.append_assoc, List.rdropWhile_append_rtakeWhile,
      List.takeWhile_append_dropWhile]

/-- All blank elements at the ends are dropped. -/
theorem trimBy_append {before body after : List α} (hblank : ∀ x ∈ before ++ after, blank x = true)
    (hbody : ∀ x ∈ body, blank x = false) : trimBy blank (before ++ body ++ after) = body := by
  have hbefore : ∀ x ∈ before, blank x = true := fun x hx => hblank x (List.mem_append_left _ hx)
  have hafter : ∀ x ∈ after, blank x = true := fun x hx => hblank x (List.mem_append_right _ hx)
  rw [trimBy_eq_rdropWhile, List.append_assoc, List.dropWhile_append_of_pos hbefore]
  cases body with
  | nil => rw [List.nil_append, List.dropWhile_eq_nil_iff.mpr hafter, List.rdropWhile_nil]
  | cons x rest =>
      have hx : ¬blank x = true := by simp [hbody x List.mem_cons_self]
      rw [List.cons_append, List.dropWhile_cons_of_neg hx, ← List.cons_append, List.rdropWhile,
        List.reverse_append,
        List.dropWhile_append_of_pos fun y hy => hafter y (List.mem_reverse.mp hy),
        ← List.rdropWhile, List.rdropWhile_eq_self_iff]
      intro hne
      simp [hbody _ (List.getLast_mem hne)]

end TrimBy

theorem blank_encode {pieces : List Utf8.Piece} (h : ∀ p ∈ pieces, isBlankPiece p = true) :
    Blank (Utf8.encode pieces) := by
  induction pieces with
  | nil => exact ⟨[], by simp, rfl⟩
  | cons p rest ih =>
      obtain ⟨chars, hchars, hrest⟩ := ih fun q hq => h q (List.mem_cons_of_mem p hq)
      cases p with
      | stray b => exact absurd (h _ List.mem_cons_self) (by simp [isBlankPiece])
      | char c =>
          refine ⟨c :: chars, ?_, ?_⟩
          · exact List.forall_mem_cons.mpr ⟨h _ List.mem_cons_self, hchars⟩
          · rw [Utf8.encode_cons, hrest, List.flatMap_cons]
            rfl

/-- Nothing but white space is dropped from a text. -/
theorem exists_trim (s : Bytes) :
    ∃ before after, Blank before ∧ Blank after ∧ s = before ++ trim s ++ after := by
  obtain ⟨before, after, hblank, hsplit⟩ := exists_trimBy isBlankPiece (Utf8.decode s)
  refine ⟨Utf8.encode before, Utf8.encode after, ?_, ?_, ?_⟩
  · exact blank_encode fun p hp => hblank p (List.mem_append_left after hp)
  · exact blank_encode fun p hp => hblank p (List.mem_append_right before hp)
  · rw [trim, ← Utf8.encode_append, ← Utf8.encode_append, ← hsplit, Utf8.encode_decode]

/-- All white space around characters that are not white space is dropped. -/
theorem trim_flatMap (before body after : List Char)
    (hblank : ∀ c ∈ before ++ after, isBlank c = true) (hbody : ∀ c ∈ body, isBlank c = false) :
    trim ((before ++ body ++ after).flatMap String.utf8EncodeChar)
      = body.flatMap String.utf8EncodeChar := by
  rw [trim, Utf8.decode_flatMap_utf8EncodeChar, List.map_append, List.map_append, trimBy_append]
  · rw [Utf8.encode, List.flatMap_map]
    rfl
  · intro p hp
    rw [← List.map_append] at hp
    obtain ⟨c, hc, rfl⟩ := List.mem_map.mp hp
    exact hblank c hc
  · intro p hp
    obtain ⟨c, hc, rfl⟩ := List.mem_map.mp hp
    exact hbody c hc

theorem trim_eq_nil_iff {s : Bytes} : trim s = [] ↔ Blank s := by
  constructor
  · intro hnil
    obtain ⟨before, after, hbefore, hafter, hs⟩ := exists_trim s
    rw [hs, hnil, List.append_nil]
    exact hbefore.append hafter
  · rintro ⟨chars, hchars, rfl⟩
    have htrim := trim_flatMap chars [] [] (by simpa using hchars) (by simp)
    simpa using htrim

/-! ### Numerals -/

/-- Decimal digits, at least one of them. -/
structure Digits (digits : List Char) : Prop where
  nonempty : digits ≠ []
  decimal : ∀ c ∈ digits, c.isDigit = true

/-- How a number is written: decimal digits behind an optional sign. -/
inductive Spells : List Char → Int → Prop where
  | unsigned {digits : List Char} (h : Digits digits) :
      Spells digits (Nat.ofDigitChars 10 digits 0)
  | plus {digits : List Char} (h : Digits digits) :
      Spells ('+' :: digits) (Nat.ofDigitChars 10 digits 0)
  | minus {digits : List Char} (h : Digits digits) :
      Spells ('-' :: digits) (-Nat.ofDigitChars 10 digits 0)

theorem digit?_of_isDigit {c : Char} (h : c.isDigit = true) :
    String.utf8EncodeChar c = [UInt8.ofNat c.toNat] ∧
      digit? (UInt8.ofNat c.toNat) = some (c.toNat - '0'.toNat) := by
  obtain ⟨hlo, hhi⟩ : 0x30 ≤ c.toNat ∧ c.toNat ≤ 0x39 := Char.isDigit_iff_toNat.mp h
  have hbyte := toNat_byte (c := c) (by omega)
  refine ⟨utf8EncodeChar_of_lt (by omega), ?_⟩
  rw [digit?, if_pos, hbyte]
  · rfl
  · rw [UInt8.le_iff_toNat_le, UInt8.le_iff_toNat_le, hbyte]
    exact ⟨hlo, hhi⟩

theorem exists_of_digit? {b : UInt8} {d : Nat} (h : digit? b = some d) :
    ∃ c : Char, c.isDigit = true ∧ String.utf8EncodeChar c = [b] ∧ c.toNat - '0'.toNat = d := by
  unfold digit? at h
  split at h
  · rename_i hrange
    have hlo : 0x30 ≤ b.toNat := UInt8.le_iff_toNat_le.mp hrange.1
    have hhi : b.toNat ≤ 0x39 := UInt8.le_iff_toNat_le.mp hrange.2
    have hchar : (Char.ofNat b.toNat).toNat = b.toNat := Utf8.val_ofNat (Or.inl (by omega))
    refine ⟨Char.ofNat b.toNat, ?_, Utf8.utf8EncodeChar_one (by omega), ?_⟩
    · rw [Char.isDigit_iff_toNat, hchar]
      exact ⟨hlo, hhi⟩
    · rw [hchar]
      exact Option.some.inj h
  · cases h

/-- Digits are read exactly if the text spells them, and give what they say in decimal. -/
theorem foldlM_digits_eq_some_iff (s : Bytes) : ∀ init n : Nat,
    s.foldlM (fun n b => (digit? b).map (n * 10 + ·)) init = some n ↔
      ∃ digits : List Char, (∀ c ∈ digits, c.isDigit = true) ∧
        s = digits.flatMap String.utf8EncodeChar ∧ Nat.ofDigitChars 10 digits init = n := by
  induction s with
  | nil =>
      intro init n
      constructor
      · intro h
        exact ⟨[], by simp, rfl, Option.some.inj h⟩
      · rintro ⟨digits, -, hnil, hvalue⟩
        cases digits with
        | nil => exact congrArg some hvalue
        | cons c rest => simp at hnil
  | cons b rest ih =>
      intro init n
      rw [List.foldlM_cons]
      constructor
      · intro h
        obtain ⟨m, hm, hrest⟩ := Option.bind_eq_some_iff.mp h
        obtain ⟨d, hd, rfl⟩ := Option.map_eq_some_iff.mp hm
        obtain ⟨c, hc, hbyte, rfl⟩ := exists_of_digit? hd
        obtain ⟨digits, hdigits, rfl, hvalue⟩ := (ih _ n).mp hrest
        refine ⟨c :: digits, ?_, ?_, ?_⟩
        · simpa using ⟨hc, hdigits⟩
        · rw [List.flatMap_cons, hbyte, List.singleton_append]
        · rw [Nat.ofDigitChars_cons, Nat.mul_comm]
          exact hvalue
      · rintro ⟨digits, hdigits, hs, hvalue⟩
        cases digits with
        | nil => simp at hs
        | cons c digits =>
            obtain ⟨hbyte, hdigit⟩ := digit?_of_isDigit (hdigits c List.mem_cons_self)
            rw [List.flatMap_cons, hbyte, List.singleton_append] at hs
            obtain ⟨rfl, rfl⟩ := List.cons.inj hs
            rw [hdigit]
            have hrest := fun c' hc' => hdigits c' (List.mem_cons_of_mem c hc')
            refine (ih _ n).mpr ⟨digits, hrest, rfl, ?_⟩
            rw [Nat.ofDigitChars_cons, Nat.mul_comm] at hvalue
            exact hvalue

theorem decimal?_eq_some_iff {s : Bytes} {n : Nat} :
    decimal? s = some n ↔ ∃ digits : List Char, Digits digits ∧
      s = digits.flatMap String.utf8EncodeChar ∧ Nat.ofDigitChars 10 digits 0 = n := by
  unfold decimal?
  split
  · rename_i hempty
    constructor
    · intro h
      cases h
    · rintro ⟨digits, hdigits, rfl, -⟩
      exact absurd (List.eq_nil_iff_forall_not_mem.mpr (by simpa using hempty)) hdigits.nonempty
  · rename_i hne
    rw [foldlM_digits_eq_some_iff]
    constructor
    · rintro ⟨digits, hdigits, rfl, hvalue⟩
      refine ⟨digits, ⟨?_, hdigits⟩, rfl, hvalue⟩
      rintro rfl
      exact hne rfl
    · rintro ⟨digits, hdigits, rfl, hvalue⟩
      exact ⟨digits, hdigits.decimal, rfl, hvalue⟩

/-- Digits do not start with a byte that is none. -/
theorem Digits.flatMap_ne {digits : List Char} (h : Digits digits) {b : UInt8}
    (hb : digit? b = none) (rest : Bytes) :
    digits.flatMap String.utf8EncodeChar ≠ b :: rest := by
  intro heq
  cases digits with
  | nil => exact h.nonempty rfl
  | cons c digits =>
      obtain ⟨hbyte, hdigit⟩ := digit?_of_isDigit (h.decimal c List.mem_cons_self)
      rw [List.flatMap_cons, hbyte, List.singleton_append] at heq
      rw [(List.cons.inj heq).1, hb] at hdigit
      cases hdigit

theorem ranged_eq_some_iff {digits : Option Nat} {sign : Nat → Int} {n : Int} :
    (do let n ← digits.map sign; if FitsWord n then some n else none) = some n ↔
      ∃ value, digits = some value ∧ sign value = n ∧ FitsWord n := by
  refine Option.bind_eq_some_iff.trans ?_
  constructor
  · rintro ⟨m, hm, hrange⟩
    obtain ⟨value, hvalue, rfl⟩ := Option.map_eq_some_iff.mp hm
    split at hrange
    · rename_i hfits
      obtain rfl := Option.some.inj hrange
      exact ⟨value, hvalue, rfl, hfits⟩
    · cases hrange
  · rintro ⟨value, hvalue, rfl, hfits⟩
    exact ⟨sign value, by rw [hvalue, Option.map_some], if_pos hfits⟩

/-- The numbers that are read are those that are spelled and fit in a word. -/
theorem signed?_eq_some_iff {s : Bytes} {n : Int} :
    signed? s = some n ↔ ∃ numeral : List Char, Spells numeral n ∧ FitsWord n ∧
      s = numeral.flatMap String.utf8EncodeChar := by
  constructor
  · intro h
    unfold signed? at h
    split at h
    · obtain ⟨value, hvalue, rfl, hfits⟩ := ranged_eq_some_iff.mp h
      obtain ⟨digits, hdigits, rfl, rfl⟩ := decimal?_eq_some_iff.mp hvalue
      exact ⟨'+' :: digits, .plus hdigits, hfits, rfl⟩
    · obtain ⟨value, hvalue, rfl, hfits⟩ := ranged_eq_some_iff.mp h
      obtain ⟨digits, hdigits, rfl, rfl⟩ := decimal?_eq_some_iff.mp hvalue
      exact ⟨'-' :: digits, .minus hdigits, hfits, rfl⟩
    · obtain ⟨value, hvalue, rfl, hfits⟩ := ranged_eq_some_iff.mp h
      obtain ⟨digits, hdigits, rfl, rfl⟩ := decimal?_eq_some_iff.mp hvalue
      exact ⟨digits, .unsigned hdigits, hfits, rfl⟩
  · rintro ⟨numeral, hspelled, hfits, rfl⟩
    cases hspelled with
    | unsigned hdigits =>
        unfold signed?
        split
        · rename_i rest heq
          exact absurd heq (hdigits.flatMap_ne (by decide) rest)
        · rename_i rest heq
          exact absurd heq (hdigits.flatMap_ne (by decide) rest)
        · exact ranged_eq_some_iff.mpr
            ⟨_, decimal?_eq_some_iff.mpr ⟨_, hdigits, rfl, rfl⟩, rfl, hfits⟩
    | plus hdigits =>
        exact ranged_eq_some_iff.mpr
          ⟨_, decimal?_eq_some_iff.mpr ⟨_, hdigits, rfl, rfl⟩, rfl, hfits⟩
    | minus hdigits =>
        exact ranged_eq_some_iff.mpr
          ⟨_, decimal?_eq_some_iff.mpr ⟨_, hdigits, rfl, rfl⟩, rfl, hfits⟩

/-- A numeral has a character, and all it has are of one byte, not white space and not a comma. -/
theorem Spells.plain {numeral : List Char} {n : Int} (h : Spells numeral n) :
    numeral ≠ [] ∧ ∀ c ∈ numeral, c.toNat < 128 ∧ isBlank c = false ∧ c ≠ ',' := by
  have hdigit : ∀ c : Char, c.isDigit = true → c.toNat < 128 ∧ isBlank c = false ∧ c ≠ ',' := by
    intro c hc
    obtain ⟨hlo, hhi⟩ : 0x30 ≤ c.toNat ∧ c.toNat ≤ 0x39 := Char.isDigit_iff_toNat.mp hc
    refine ⟨by omega, ?_, ?_⟩
    · simp only [isBlank, Bool.or_eq_false_iff, Bool.and_eq_false_iff, decide_eq_false_iff_not]
      omega
    · rintro rfl
      exact absurd hlo (by decide)
  have hdigits : ∀ {digits : List Char}, Digits digits →
      ∀ c ∈ digits, c.toNat < 128 ∧ isBlank c = false ∧ c ≠ ',' :=
    fun h c hc => hdigit c (h.decimal c hc)
  cases h with
  | unsigned h => exact ⟨h.nonempty, hdigits h⟩
  | plus h => exact ⟨List.cons_ne_nil _ _, List.forall_mem_cons.mpr ⟨by decide, hdigits h⟩⟩
  | minus h => exact ⟨List.cons_ne_nil _ _, List.forall_mem_cons.mpr ⟨by decide, hdigits h⟩⟩

end Text

end TimeTape
