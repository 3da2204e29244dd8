/-
Lists of breakpoints as they are written and read.

A list is read in three rounds: it is cut at its commas, white space is dropped from both ends of
every piece, and what is left is read as a number.  `Denotes` says which number a piece stands for
without going through these rounds: the piece is white space, a numeral and white space again.

A piece that stands for a number is read as that number, and any other is refused.  So a list is
read exactly when all of its pieces stand for numbers, and otherwise the first one that does not is
the one that is reported.
-/
import TimeTape.Config
import TimeTape.Proofs.Text
import Mathlib.Data.List.Forall2

namespace TimeTape

namespace Breakpoints

/-! ### One piece of a list -/

/-- The piece of a list that stands for `n`: a numeral for it, with white space around. -/
def Denotes (piece : Bytes) (n : Int) : Prop :=
  ∃ before numeral after : List Char, (∀ c ∈ before ++ after, Text.isBlank c = true) ∧
    Text.Spells numeral n ∧ FitsWord n ∧
    piece = (before ++ numeral ++ after).flatMap String.utf8EncodeChar

theorem signed?_trim_eq_some_iff {piece : Bytes} {n : Int} :
    Text.signed? (Text.trim piece) = some n ↔ Denotes piece n := by
  rw [Text.signed?_eq_some_iff]
  constructor
  · rintro ⟨numeral, hspelled, hfits, htrim⟩
    obtain ⟨_, _, ⟨before, hbefore, rfl⟩, ⟨after, hafter, rfl⟩, hpiece⟩ := Text.exists_trim piece
    have hblank := List.forall_mem_append.mpr ⟨hbefore, hafter⟩
    refine ⟨before, numeral, after, hblank, hspelled, hfits, ?_⟩
    rw [hpiece, htrim, List.flatMap_append, List.flatMap_append]
  · rintro ⟨before, numeral, after, hblank, hspelled, hfits, rfl⟩
    refine ⟨numeral, hspelled, hfits, ?_⟩
    exact Text.trim_flatMap before numeral after hblank fun c hc => (hspelled.plain.2 c hc).2.1

theorem field_eq_ok_iff {piece : Bytes} {n : Int} : field piece = .ok n ↔ Denotes piece n := by
  rw [← signed?_trim_eq_some_iff, field]
  cases Text.signed? (Text.trim piece) with
  | none => simp
  | some m => simp

/-- A piece that stands for no number is reported as it is. -/
theorem field_of_not_denotes {piece : Bytes} (h : ∀ n, ¬Denotes piece n) :
    field piece = .error ⟨piece⟩ := by
  rw [field]
  cases hread : Text.signed? (Text.trim piece) with
  | none => rfl
  | some n => exact absurd (signed?_trim_eq_some_iff.mp hread) (h n)

/-! ### The pieces of a list -/

/-- The byte that separates the pieces. -/
def comma : UInt8 := 0x2C

/-- The text falls into these pieces at its commas. -/
structure Separated (text : Bytes) (pieces : List Bytes) : Prop where
  nonempty : pieces ≠ []
  clean : ∀ piece ∈ pieces, comma ∉ piece
  joined : text = [comma].intercalate pieces

theorem fields_eq_splitOn (text : Bytes) : fields text = text.splitOn comma := by
  induction text with
  | nil => rfl
  | cons b rest ih =>
      rw [List.splitOn_cons_eq_if_modifyHead, ← ih, fields]
      by_cases hb : b = 0x2C
      · have hcomma : (b == comma) = true := beq_iff_eq.mpr hb
        rw [if_pos hb, if_pos hcomma]
      · have hcomma : ¬(b == comma) = true := fun heq => hb (beq_iff_eq.mp heq)
        rw [if_neg hb, if_neg hcomma]
        have hne : fields rest ≠ [] := ih ▸ List.splitOn_ne_nil comma rest
        cases hrest : fields rest with
        | nil => exact absurd hrest hne
        | cons first more => rfl

theorem separated_fields (text : Bytes) : Separated text (fields text) := by
  rw [fields_eq_splitOn]
  exact ⟨List.splitOn_ne_nil comma text, fun _ => Text.not_mem_of_mem_splitOn,
    (List.intercalate_splitOn comma).symm⟩

theorem Separated.fields_eq {text : Bytes} {pieces : List Bytes} (h : Separated text pieces) :
    fields text = pieces := by
  rw [fields_eq_splitOn, h.joined, List.splitOn_intercalate comma h.clean h.nonempty]

/-! ### The whole list -/

theorem parse_of_not_blank {text : Bytes} (h : ¬Text.Blank text) :
    parse text = (fields text).mapM field := by
  rw [parse, if_neg]
  rw [List.isEmpty_iff, Text.trim_eq_nil_iff]
  exact h

/-- All pieces are read, or the first that stands for no number is reported. -/
theorem mapM_field_cases (pieces : List Bytes) :
    (∃ ns, pieces.mapM field = .ok ns ∧ List.Forall₂ Denotes pieces ns) ∨
    ∃ front bad back, pieces = front ++ bad :: back ∧ (∀ piece ∈ front, ∃ n, Denotes piece n) ∧
      (∀ n, ¬Denotes bad n) ∧ pieces.mapM field = .error ⟨bad⟩ := by
  induction pieces with
  | nil => exact Or.inl ⟨[], rfl, .nil⟩
  | cons piece rest ih =>
      rw [List.mapM_cons]
      by_cases hpiece : ∃ n, Denotes piece n
      · obtain ⟨n, hn⟩ := hpiece
        rw [field_eq_ok_iff.mpr hn]
        rcases ih with ⟨ns, hread, hns⟩ | ⟨front, bad, back, rfl, hfront, hbad, hread⟩
        · rw [hread]
          exact Or.inl ⟨n :: ns, rfl, .cons hn hns⟩
        · rw [hread]
          have hbefore := List.forall_mem_cons.mpr ⟨⟨n, hn⟩, hfront⟩
          exact Or.inr ⟨piece :: front, bad, back, rfl, hbefore, hbad, rfl⟩
      · have hnone : ∀ n, ¬Denotes piece n := fun n hn => hpiece ⟨n, hn⟩
        rw [field_of_not_denotes hnone]
        exact Or.inr ⟨[], piece, rest, rfl, by simp, hnone, rfl⟩

/-! ### Writing a list -/

/-- A number in a list, with all that is left to whoever writes it. -/
structure Entry where
  value : Int
  fits : FitsWord value
  /-- Whether a number that is not negative gets a plus sign. -/
  plus : Bool
  /-- How many zeros stand in front of its digits. -/
  zeros : Nat
  /-- The white space in front of it. -/
  before : List Char
  /-- The white space behind it. -/
  after : List Char
  blank : ∀ c ∈ before ++ after, Text.isBlank c = true

namespace Entry

/-- The digits of a number, without a sign. -/
def digits (e : Entry) : List Char :=
  List.replicate e.zeros '0' ++ (toString e.value.natAbs).toList

/-- The number with its sign. -/
def numeral (e : Entry) : List Char :=
  if e.value < 0 then '-' :: e.digits else if e.plus then '+' :: e.digits else e.digits

/-- The number as it stands in a list. -/
def text (e : Entry) : Bytes :=
  (e.before ++ e.numeral ++ e.after).flatMap String.utf8EncodeChar

theorem toList_toString (n : Nat) : (toString n).toList = Nat.toDigits 10 n := by
  rw [Nat.toString_eq_ofList_toDigits, String.toList_ofList]

theorem digits_digits (e : Entry) : Text.Digits e.digits := by
  rw [digits, toList_toString]
  refine ⟨?_, ?_⟩
  · simp [Nat.toDigits_ne_nil]
  · intro c hc
    rcases List.mem_append.mp hc with hzero | hdigit
    · rw [List.eq_of_mem_replicate hzero]
      decide
    · exact Nat.isDigit_of_mem_toDigits (by decide) (by decide) hdigit

theorem ofDigitChars_zeros (n : Nat) : Nat.ofDigitChars 10 (List.replicate n '0') 0 = 0 := by
  induction n with
  | zero => rfl
  | succ n ih => exact ih

theorem ofDigitChars_digits (e : Entry) : Nat.ofDigitChars 10 e.digits 0 = e.value.natAbs := by
  rw [digits, toList_toString, Nat.ofDigitChars_append, ofDigitChars_zeros,
    Nat.ofDigitChars_ten_toDigits]

theorem spells (e : Entry) : Text.Spells e.numeral e.value := by
  have hvalue := e.ofDigitChars_digits
  unfold numeral
  split
  · have hminus := Text.Spells.minus e.digits_digits
    rw [hvalue, show -(e.value.natAbs : Int) = e.value by omega] at hminus
    exact hminus
  · have hnonneg : (e.value.natAbs : Int) = e.value := by omega
    split
    · have hplus := Text.Spells.plus e.digits_digits
      rw [hvalue, hnonneg] at hplus
      exact hplus
    · have hunsigned := Text.Spells.unsigned e.digits_digits
      rw [hvalue, hnonneg] at hunsigned
      exact hunsigned

theorem denotes (e : Entry) : Denotes e.text e.value :=
  ⟨e.before, e.numeral, e.after, e.blank, e.spells, e.fits, rfl⟩

theorem comma_not_mem (e : Entry) : comma ∉ e.text := by
  intro hmem
  have hchar : ',' ∈ e.before ++ e.numeral ++ e.after := Text.mem_of_byte_mem (by decide) hmem
  have hnot : Text.isBlank ',' = false := by decide
  rw [List.append_assoc, List.mem_append, List.mem_append] at hchar
  rcases hchar with hbefore | hnumeral | hafter
  · rw [e.blank _ (List.mem_append_left _ hbefore)] at hnot
    cases hnot
  · exact (e.spells.plain.2 _ hnumeral).2.2 rfl
  · rw [e.blank _ (List.mem_append_right _ hafter)] at hnot
    cases hnot

/-- A text that starts with a number is not white space only. -/
theorem not_blank (e : Entry) (rest : Bytes) : ¬Text.Blank (e.text ++ rest) := by
  rintro ⟨chars, hchars, htext⟩
  obtain ⟨hne, hplain⟩ := e.spells.plain
  obtain ⟨c, hc⟩ := List.exists_mem_of_ne_nil _ hne
  obtain ⟨hlt, hnot, -⟩ := hplain c hc
  have hbyte : UInt8.ofNat c.toNat ∈ e.text := by
    refine List.mem_flatMap.mpr ⟨c, List.mem_append_left _ (List.mem_append_right _ hc), ?_⟩
    rw [Text.utf8EncodeChar_of_lt hlt]
    exact List.mem_singleton_self _
  have hmem := Text.mem_of_byte_mem hlt (htext ▸ List.mem_append_left rest hbyte)
  rw [hchars c hmem] at hnot
  cases hnot

end Entry

theorem separated_entries {entries : List Entry} (h : entries ≠ []) :
    Separated ([comma].intercalate (entries.map Entry.text)) (entries.map Entry.text) := by
  refine ⟨by simpa using h, ?_, rfl⟩
  intro piece hpiece
  obtain ⟨e, -, rfl⟩ := List.mem_map.mp hpiece
  exact e.comma_not_mem

theorem not_blank_entries {entries : List Entry} (h : entries ≠ []) :
    ¬Text.Blank ([comma].intercalate (entries.map Entry.text)) := by
  cases entries with
  | nil => exact absurd rfl h
  | cons e rest =>
      cases rest with
      | nil => simpa using e.not_blank []
      | cons e' rest =>
          rw [List.map_cons, List.map_cons, List.intercalate_cons_cons, List.append_assoc]
          exact e.not_blank _

theorem mapM_field_entries (entries : List Entry) :
    (entries.map Entry.text).mapM field = .ok (entries.map Entry.value) := by
  induction entries with
  | nil => rfl
  | cons e rest ih =>
      rw [List.map_cons, List.mapM_cons, field_eq_ok_iff.mpr e.denotes, ih]
      rfl

/--
**A list of breakpoints is read back, and nothing else is read.**  Write numbers that fit in a word
in the decimal system, with a plus sign or without, with leading zeros and with white space around
them, and put commas in between: what is read is the list of these numbers.  And take any text that
is not white space only, with the pieces that it falls into at its commas.  Either all of them stand
for numbers that fit in a word, and the list of these is read, or the first that does not is quoted
in the error as it was written.
-/
theorem breakpoint_list_is_read_back :
    (∀ entries : List Entry, entries ≠ [] →
      parse ([comma].intercalate (entries.map Entry.text)) = .ok (entries.map Entry.value)) ∧
    ∀ text : Bytes, ¬Text.Blank text → ∃ pieces, Separated text pieces ∧
      ((∃ ns, parse text = .ok ns ∧ List.Forall₂ Denotes pieces ns) ∨
        ∃ front bad back, pieces = front ++ bad :: back ∧ (∀ piece ∈ front, ∃ n, Denotes piece n) ∧
          (∀ n, ¬Denotes bad n) ∧
          ∃ e, parse text = .error e ∧ e.message = "invalid breakpoint " ++ Text.quote bad) := by
  refine ⟨?_, ?_⟩
  · intro entries hne
    have hseparated := separated_entries hne
    rw [parse_of_not_blank (not_blank_entries hne), hseparated.fields_eq, mapM_field_entries]
  · intro text hblank
    refine ⟨fields text, separated_fields text, ?_⟩
    rw [parse_of_not_blank hblank]
    rcases mapM_field_cases (fields text) with
      hread | ⟨front, bad, back, hsplit, hfront, hbad, hread⟩
    · exact Or.inl hread
    · exact Or.inr ⟨front, bad, back, hsplit, hfront, hbad, ⟨bad⟩, hread, rfl⟩

/--
The list ` -009223372036854775808,+07` with a no-break space behind it and then `,7` is read back,
and of the list `7, ,7` the piece in the middle is reported.
-/
theorem breakpoint_list_is_read_back_at_limits :
    let least : Entry :=
      ⟨-9223372036854775808, by decide, false, 2, [' '], [], List.all_eq_true.mp rfl⟩
    let signed : Entry :=
      ⟨7, by decide, true, 1, [], [Char.ofNat 0xA0], List.all_eq_true.mp rfl⟩
    let bare : Entry := ⟨7, by decide, false, 0, [], [], List.all_eq_true.mp rfl⟩
    let faulty : Bytes := [0x37, 0x2C, 0x20, 0x2C, 0x37]
    parse ([comma].intercalate ([least, signed, bare].map Entry.text))
      = .ok [-9223372036854775808, 7, 7] ∧
    ¬Text.Blank faulty ∧ ∃ bad e, parse faulty = .error e ∧ (∀ n, ¬Denotes bad n) ∧
      e.message = "invalid breakpoint " ++ Text.quote bad := by
  intro least signed bare faulty
  have hblank : ¬Text.Blank faulty := by
    rw [← Text.trim_eq_nil_iff]
    decide
  refine ⟨breakpoint_list_is_read_back.1 [least, signed, bare] (by simp), hblank, ?_⟩
  obtain ⟨pieces, -, hread⟩ := breakpoint_list_is_read_back.2 faulty hblank
  rcases hread with ⟨ns, hread, -⟩ | ⟨_, bad, _, -, -, hbad, e, hread, hmessage⟩
  · have herror : parse faulty = .error ⟨[0x20]⟩ := by rfl
    rw [herror] at hread
    cases hread
  · exact ⟨bad, e, hread, hbad, hmessage⟩

end Breakpoints

end TimeTape
