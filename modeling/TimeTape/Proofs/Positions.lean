/-
Places follow the lines and the characters of the text.

An editor counts lines by their line breaks and, on a line, the UTF-16 code units before a
character.  Both can be read off the text: `breakEndsAt` says where a line break ends, looking at
the byte before and the byte behind, and the units are those of the text between the last break and
the character.  The layout instead runs over the text once, with two counters and a look at the next
character.

The invariant is about every cut between two characters.  The lines are right at all of them, but
not the units: between a carriage return and its line feed the counter has left the return out,
which a count of units would not.  No byte of a program stands there, and the line feed sets the
counter back.
-/
import TimeTape.Proofs.Layout
import Mathlib.Data.List.Induction

namespace TimeTape

open Utf8

/-! ### Lines and units of a text -/

/-- The UTF-16 code units of a character: itself, or a pair of surrogates. -/
def utf16 (c : Char) : List UInt16 :=
  if c.toNat < 0x10000 then [UInt16.ofNat c.toNat]
  else
    [UInt16.ofNat (0xD800 + (c.toNat - 0x10000) / 0x400),
      UInt16.ofNat (0xDC00 + (c.toNat - 0x10000) % 0x400)]

/-- The UTF-16 code units of some pieces of text. -/
def units (pieces : List Piece) : List UInt16 :=
  pieces.flatMap fun p => utf16 p.shown

namespace Text

/--
Whether a line break ends at an offset of a text, right behind a line feed or a carriage return.
A carriage return in front of a line feed does not end one, since the two break the line together.
-/
def breakEndsAt (text : Bytes) : Nat → Bool
  | 0 => false
  | o + 1 =>
    text[o]? = some lineFeed || text[o]? = some carriageReturn && text[o + 1]? ≠ some lineFeed

/-- Where the line breaks end that end at an offset or before it, in order. -/
def breaksUpTo (text : Bytes) (o : Nat) : List Nat :=
  (List.range (o + 1)).filter (breakEndsAt text)

/-- Where the line of an offset starts: at the end of the last break, or where the text does. -/
def lineStart (text : Bytes) (o : Nat) : Nat :=
  (breaksUpTo text o).getLastD 0

/-- The text between two offsets. -/
def slice (text : Bytes) (a b : Nat) : Bytes :=
  (text.take b).drop a

/--
The place of an offset: the number of line breaks up to it, and the number of code units between
the last of them and the offset.
-/
def place (text : Bytes) (o : Nat) : Position :=
  { line := (breaksUpTo text o).length
    character := (units (decode (slice text (lineStart text o) o))).length }

end Text

section Units

variable (a b : List Piece) (p : Piece)

@[simp] theorem units_append : units (a ++ b) = units a ++ units b :=
  List.flatMap_append

@[simp] theorem units_singleton : units [p] = utf16 p.shown := by simp [units]

/-- A piece takes up as many units as it has in UTF-16. -/
theorem length_utf16 : (utf16 p.shown).length = p.units := by
  unfold utf16 Piece.units
  split <;> rfl

theorem units_pos : 0 < p.units := by
  unfold Piece.units
  split <;> omega

/-- A character has no more units than bytes. -/
theorem units_le_length_bytes : p.units ≤ p.bytes.length := by
  unfold Piece.units
  split
  · exact length_bytes_pos p
  · rename_i hwide
    cases p with
    | stray b => exact absurd (show (Char.ofNat 0xFFFD).toNat < 0x10000 by decide) hwide
    | char c =>
        show 2 ≤ (String.utf8EncodeChar c).length
        have hval : ¬c.val.toNat < 0x10000 := hwide
        simp only [String.utf8EncodeChar]
        rw [if_neg (by omega), if_neg (by omega), if_neg (by omega)]
        simp

theorem length_units_le : (units a).length ≤ (encode a).length := by
  induction a with
  | nil => exact Nat.le_refl 0
  | cons p rest ih =>
      have hp := units_le_length_bytes p
      rw [← List.singleton_append, units_append, units_singleton, List.length_append, length_utf16,
        encode_append, List.length_append]
      simp only [encode_cons, encode_nil, List.append_nil]
      omega

end Units

/-! ### Which character a byte of the program belongs to -/

/-- The piece of a text that starts at an offset. -/
def StartsAt (text : Bytes) (o : Nat) (piece : Piece) : Prop :=
  ∃ front back, decode text = front ++ piece :: back ∧ (encode front).length = o

/-- The byte of the program at index `i` is the one at offset `s` of the text. -/
structure LoadedFrom (text : Bytes) (i s : Nat) : Prop where
  kept : ∃ b, text[s]? = some b ∧ Text.isLineBreak b = false
  index : (Text.joinLines (text.take s)).length = i

/-- The byte of the program at index `i` belongs to the character that starts at offset `o`. -/
def BelongsTo (text : Bytes) (i o : Nat) : Prop :=
  ∃ piece s, StartsAt text o piece ∧ o ≤ s ∧ s < o + piece.bytes.length ∧ LoadedFrom text i s

/-- Whether a piece of text is a line break or a half of one. -/
def Utf8.Piece.Breaks (p : Piece) : Prop :=
  p = .char '\n' ∨ p = .char '\r'

theorem joinLines_append (a b : Bytes) :
    Text.joinLines (a ++ b) = Text.joinLines a ++ Text.joinLines b :=
  List.filter_append ..

namespace Utf8.Piece

variable {p : Piece} {b : UInt8}

theorem clean_of_mem {text : Bytes} {pieces : List Piece} (hsplit : decode text = pieces)
    (hp : p ∈ pieces) : p.Clean := by
  rw [← hsplit] at hp
  intro b hb hlt
  exact eq_char_of_mem_bytes hp hb hlt

theorem joinLines_of_not_breaks (hp : p.Clean) (hword : ¬p.Breaks) :
    Text.joinLines p.bytes = p.bytes :=
  (joinLines_bytes hp).trans (if_neg hword)

theorem joinLines_of_breaks (hp : p.Clean) (hbreak : p.Breaks) : Text.joinLines p.bytes = [] :=
  (joinLines_bytes hp).trans (if_pos hbreak)

/-- A character that does not break a line has no byte that does. -/
theorem Clean.kept (hp : p.Clean) (hword : ¬p.Breaks) (hb : b ∈ p.bytes) :
    Text.isLineBreak b = false := by
  have hkept := List.filter_eq_self.mp (joinLines_of_not_breaks hp hword) b hb
  simpa using hkept

theorem not_breaks_of_kept (hb : b ∈ p.bytes) (hkept : Text.isLineBreak b = false) :
    ¬p.Breaks := by
  intro hbreak
  rcases hbreak with rfl | rfl
  · obtain rfl : b = Text.lineFeed := List.mem_singleton.mp hb
    exact absurd hkept (by decide)
  · obtain rfl : b = Text.carriageReturn := List.mem_singleton.mp hb
    exact absurd hkept (by decide)

end Utf8.Piece

/--
A byte of the program, told by the pieces of the text: `front` comes before its character, and `k`
bytes of the character before it.
-/
structure Cut (text : Bytes) (i : Nat) (front : List Piece) (piece : Piece) (back : List Piece)
    (k : Nat) : Prop where
  split : decode text = front ++ piece :: back
  word : ¬piece.Breaks
  lt : k < piece.bytes.length
  index : i = (Text.joinLines (encode front)).length + k

section Offsets

variable {text : Bytes} {front back : List Piece} {piece : Piece}

theorem eq_of_split (h : decode text = front ++ piece :: back) :
    text = encode front ++ (piece.bytes ++ encode back) := by
  rw [← encode_cons, ← encode_append, ← h, encode_decode]

theorem clean_of_split (h : decode text = front ++ piece :: back) : piece.Clean :=
  Piece.clean_of_mem h (by simp)

/-- The bytes of a piece stand in the text from its offset on. -/
theorem getElem?_of_split (h : decode text = front ++ piece :: back) {k : Nat}
    (hk : k < piece.bytes.length) : text[(encode front).length + k]? = piece.bytes[k]? := by
  rw [eq_of_split h, List.getElem?_append_right (Nat.le_add_right _ _), Nat.add_sub_cancel_left,
    List.getElem?_append_left hk]

theorem joinLines_take_of_split (h : decode text = front ++ piece :: back) (hword : ¬piece.Breaks)
    {k : Nat} (hk : k < piece.bytes.length) :
    (Text.joinLines (text.take ((encode front).length + k))).length =
      (Text.joinLines (encode front)).length + k := by
  have htake : text.take ((encode front).length + k) = encode front ++ piece.bytes.take k := by
    rw [eq_of_split h, List.take_length_add_append, List.take_append_of_le_length (Nat.le_of_lt hk)]
  have hkept : Text.joinLines (piece.bytes.take k) = piece.bytes.take k := by
    refine List.filter_eq_self.mpr ?_
    intro b hb
    simp [(clean_of_split h).kept hword (List.mem_of_mem_take hb)]
  rw [htake, joinLines_append, hkept, List.length_append, List.length_take]
  omega

end Offsets

/-- A byte of the program is the byte of the text so far into its character. -/
theorem Cut.loadedFrom {text : Bytes} {i k : Nat} {front back : List Piece} {piece : Piece}
    (h : Cut text i front piece back k) : LoadedFrom text i ((encode front).length + k) := by
  obtain ⟨hsplit, hword, hk, rfl⟩ := h
  have hbyte := (getElem?_of_split hsplit hk).trans (List.getElem?_eq_getElem hk)
  have hkept := (clean_of_split hsplit).kept hword (List.getElem_mem hk)
  exact ⟨⟨_, hbyte, hkept⟩, joinLines_take_of_split hsplit hword hk⟩

theorem belongsTo_iff {text : Bytes} {i o : Nat} :
    BelongsTo text i o ↔ ∃ front piece back k, Cut text i front piece back k ∧
      (encode front).length = o := by
  constructor
  · rintro ⟨piece, s, ⟨front, back, hsplit, rfl⟩, hlo, hhi, ⟨b, hb, hkept⟩, rfl⟩
    obtain ⟨k, rfl⟩ := Nat.exists_eq_add_of_le hlo
    have hk : k < piece.bytes.length := by omega
    rw [getElem?_of_split hsplit hk] at hb
    have hword := Piece.not_breaks_of_kept (List.mem_of_getElem? hb) hkept
    exact ⟨front, piece, back, k, ⟨hsplit, hword, hk, joinLines_take_of_split hsplit hword hk⟩, rfl⟩
  · rintro ⟨front, piece, back, k, hcut, rfl⟩
    exact ⟨piece, (encode front).length + k, ⟨front, back, hcut.split, rfl⟩,
      Nat.le_add_right _ _, Nat.add_lt_add_left hcut.lt _, hcut.loadedFrom⟩

theorem exists_split_of_lt (pieces : List Piece) (hclean : ∀ p ∈ pieces, p.Clean) :
    ∀ i, i < (Text.joinLines (encode pieces)).length →
      ∃ front piece back k, pieces = front ++ piece :: back ∧ ¬piece.Breaks ∧
        k < piece.bytes.length ∧ i = (Text.joinLines (encode front)).length + k := by
  induction pieces with
  | nil =>
      intro i hi
      cases hi
  | cons piece rest ih =>
      intro i hi
      have hpiece := hclean piece (by simp)
      rw [encode_cons, joinLines_append, List.length_append] at hi
      by_cases hfirst : i < (Text.joinLines piece.bytes).length
      · have hword : ¬piece.Breaks := by
          intro hbreak
          rw [Piece.joinLines_of_breaks hpiece hbreak] at hfirst
          cases hfirst
        rw [Piece.joinLines_of_not_breaks hpiece hword] at hfirst
        exact ⟨[], piece, rest, i, rfl, hword, hfirst, (Nat.zero_add i).symm⟩
      · obtain ⟨front, p, back, k, hsplit, hword, hk, hindex⟩ :=
          ih (fun p hp => hclean p (by simp [hp])) (i - (Text.joinLines piece.bytes).length)
            (by omega)
        refine ⟨piece :: front, p, back, k, by rw [hsplit]; rfl, hword, hk, ?_⟩
        rw [encode_cons, joinLines_append, List.length_append]
        omega

/-- Every byte of the program belongs to a character of the text. -/
theorem exists_cut {text : Bytes} {i : Nat} (hi : i < (Text.joinLines text).length) :
    ∃ front piece back k, Cut text i front piece back k := by
  rw [← encode_decode text] at hi
  obtain ⟨front, piece, back, k, hsplit, hword, hk, hindex⟩ :=
    exists_split_of_lt (decode text) (fun p hp => Piece.clean_of_mem rfl hp) i hi
  exact ⟨front, piece, back, k, hsplit, hword, hk, hindex⟩

/-! ### Where the layout is at a cut -/

/-- The place behind a piece of text at `p`, when `rest` comes next. -/
def Position.past (p : Position) (piece : Piece) (rest : List Piece) : Position :=
  if piece.isLineFeed || piece.isLoneReturn rest then p.nextLine
  else if piece = .char '\r' then p
  else p.shift piece.units

/-- The place behind the pieces `front` of a text that starts at `p`, when `back` comes next. -/
def placeAfter (p : Position) : List Piece → List Piece → Position
  | [], _ => p
  | piece :: front, back => placeAfter (p.past piece (front ++ back)) front back

theorem placeAfter_concat (front : List Piece) (piece : Piece) (back : List Piece) :
    ∀ p, placeAfter p (front ++ [piece]) back =
      (placeAfter p front (piece :: back)).past piece back := by
  induction front with
  | nil => intro p; rfl
  | cons first front ih =>
      intro p
      rw [List.cons_append, placeAfter, placeAfter, ih, List.append_assoc]
      rfl

theorem layout_of_breaks {piece : Piece} (hbreak : piece.Breaks) (p : Position)
    (rest : List Piece) : layout p (piece :: rest) = layout (p.past piece rest) rest := by
  unfold Position.past
  rw [layout]
  by_cases hnext : piece.isLineFeed || piece.isLoneReturn rest
  · rw [if_pos hnext, if_pos hnext]
  · have hreturn : piece = .char '\r' :=
      hbreak.resolve_left fun hfeed => hnext (by simp [Piece.isLineFeed, hfeed])
    rw [if_neg hnext, if_neg hnext, if_pos hreturn, if_pos hreturn]

theorem layout_of_not_breaks {piece : Piece} (hword : ¬piece.Breaks) (p : Position)
    (rest : List Piece) :
    layout p (piece :: rest) = piece.bytes.map (·, p) ++ layout (p.past piece rest) rest := by
  have hfeed : piece ≠ .char '\n' := fun h => hword (Or.inl h)
  have hreturn : piece ≠ .char '\r' := fun h => hword (Or.inr h)
  have hstays : ¬(piece.isLineFeed || piece.isLoneReturn rest) := by
    simp [Piece.isLineFeed, Piece.isLoneReturn, hfeed, hreturn]
  unfold Position.past
  rw [layout, if_neg hstays, if_neg hreturn, if_neg hstays, if_neg hreturn]

/-- Past the bytes of the pieces in front, the layout goes on from the place behind them. -/
theorem drop_layout (front back : List Piece) (hclean : ∀ p ∈ front, p.Clean) :
    ∀ p, (layout p (front ++ back)).drop (Text.joinLines (encode front)).length =
      layout (placeAfter p front back) back := by
  induction front with
  | nil => intro p; rfl
  | cons piece front ih =>
      intro p
      have hpiece := hclean piece (by simp)
      have hrest := ih (fun q hq => hclean q (by simp [hq])) (p.past piece (front ++ back))
      rw [encode_cons, joinLines_append, List.cons_append, placeAfter]
      by_cases hbreak : piece.Breaks
      · rw [layout_of_breaks hbreak, Piece.joinLines_of_breaks hpiece hbreak, List.nil_append]
        exact hrest
      · rw [layout_of_not_breaks hbreak, Piece.joinLines_of_not_breaks hpiece hbreak,
          List.length_append, ← List.drop_drop, List.drop_left' (by simp)]
        exact hrest

/-- A byte of the program is placed where the layout is before its character. -/
theorem Cut.getElem?_positions {text : Bytes} {i k : Nat} {front back : List Piece} {piece : Piece}
    (h : Cut text i front piece back k) :
    (Document.ofText text).positions[i]? = some (placeAfter {} front (piece :: back)) := by
  have hfront : ∀ p ∈ front, p.Clean := by
    intro p hp
    exact Piece.clean_of_mem h.split (List.mem_append_left _ hp)
  have hdrop := drop_layout front (piece :: back) hfront {}
  rw [← h.split, layout_of_not_breaks h.word] at hdrop
  have hlaid : ((layout {} (decode text)).map Prod.snd)[i]? =
      (((layout {} (decode text)).drop (Text.joinLines (encode front)).length)[k]?).map
        Prod.snd := by
    rw [List.getElem?_map, List.getElem?_drop, ← h.index]
  show ((layout {} (decode text)).map Prod.snd).toArray[i]? = _
  rw [List.getElem?_toArray, hlaid, hdrop, List.getElem?_append_left (by simpa using h.lt),
    List.getElem?_map, List.getElem?_eq_getElem h.lt]
  rfl

/-! ### Counting up to a cut -/

namespace Position

theorem wrap_of_lt {n : Nat} (h : n < UInt32.size) : wrap n = n :=
  Nat.mod_eq_of_lt h

theorem wrap_wrap_add (a b : Nat) : wrap (wrap a + b) = wrap (a + b) :=
  Nat.mod_add_mod a UInt32.size b

end Position

namespace Text

variable {text : Bytes} {o : Nat}

theorem breaksUpTo_succ (text : Bytes) (o : Nat) :
    breaksUpTo text (o + 1) =
      breaksUpTo text o ++ if breakEndsAt text (o + 1) then [o + 1] else [] := by
  unfold breaksUpTo
  rw [List.range_succ, List.filter_append, List.filter_cons, List.filter_nil]

theorem breaksUpTo_add {n : Nat} (h : ∀ k, k < n → breakEndsAt text (o + k + 1) = false) :
    breaksUpTo text (o + n) = breaksUpTo text o := by
  induction n with
  | zero => rfl
  | succ n ih =>
      rw [← Nat.add_assoc, breaksUpTo_succ, h n (Nat.lt_succ_self n),
        ih fun k hk => h k (Nat.lt_succ_of_lt hk)]
      exact List.append_nil _

/-- No break ends right behind a byte that breaks no line. -/
theorem breakEndsAt_of_kept {b : UInt8} (hb : text[o]? = some b) (hkept : isLineBreak b = false) :
    breakEndsAt text (o + 1) = false := by
  unfold isLineBreak at hkept
  simp only [Bool.or_eq_false_iff, decide_eq_false_iff_not] at hkept
  unfold breakEndsAt
  simp [hb, hkept.1, hkept.2]

end Text

section Breaks

variable {text : Bytes} {front back : List Piece} {piece : Piece}

/-- What comes next in the text starts with a line feed exactly if it is one. -/
theorem head_encode_eq_lineFeed (hclean : ∀ p ∈ back, p.Clean) :
    (encode back)[0]? = some Text.lineFeed ↔ back.head?.any Piece.isLineFeed := by
  cases back with
  | nil => simp
  | cons next back =>
      have hnext := hclean next (by simp)
      rw [encode_cons, List.getElem?_append_left (length_bytes_pos next)]
      simp only [List.head?_cons, Option.any_some, Piece.isLineFeed, decide_eq_true_eq]
      constructor
      · intro hbyte
        exact hnext _ (List.mem_of_getElem? hbyte) (by decide)
      · rintro rfl
        rfl

theorem length_bytes_of_breaks (hbreak : piece.Breaks) : piece.bytes.length = 1 := by
  rcases hbreak with rfl | rfl <;> rfl

/-- A line break ends behind a line feed and behind a carriage return that stands by itself. -/
theorem breakEndsAt_of_breaks (hsplit : decode text = front ++ piece :: back)
    (hbreak : piece.Breaks) :
    Text.breakEndsAt text ((encode front).length + 1) =
      (piece.isLineFeed || piece.isLoneReturn back) := by
  have hfirst := getElem?_of_split hsplit (k := 0) (length_bytes_pos piece)
  have hnext : text[(encode front).length + 1]? = (encode back)[0]? := by
    rw [eq_of_split hsplit, List.getElem?_append_right (Nat.le_add_right _ _),
      Nat.add_sub_cancel_left,
      List.getElem?_append_right (Nat.le_of_eq (length_bytes_of_breaks hbreak)),
      length_bytes_of_breaks hbreak]
  have hback : ∀ p ∈ back, p.Clean := by
    intro p hp
    exact Piece.clean_of_mem hsplit (List.mem_append_right _ (List.mem_cons_of_mem _ hp))
  have hfeed := head_encode_eq_lineFeed hback
  rw [Nat.add_zero] at hfirst
  rw [Text.breakEndsAt, hfirst, hnext]
  rcases hbreak with rfl | rfl
  · rfl
  · show decide ((encode back)[0]? ≠ some Text.lineFeed) = !back.head?.any Piece.isLineFeed
    rw [decide_not, Bool.eq_iff_iff.mpr (decide_eq_true_iff.trans hfeed)]

/-- No line break ends in a character that breaks no line, nor at its end. -/
theorem breaksUpTo_of_not_breaks (hsplit : decode text = front ++ piece :: back)
    (hword : ¬piece.Breaks) :
    Text.breaksUpTo text (encode (front ++ [piece])).length =
      Text.breaksUpTo text (encode front).length := by
  rw [encode_append, List.length_append, encode_cons, encode_nil, List.append_nil]
  refine Text.breaksUpTo_add ?_
  intro k hk
  have hbyte := (getElem?_of_split hsplit hk).trans (List.getElem?_eq_getElem hk)
  exact Text.breakEndsAt_of_kept hbyte
    ((clean_of_split hsplit).kept hword (List.getElem_mem hk))

end Breaks

/-- Whether a cut falls between a carriage return and its line feed. -/
def SplitsBreak (front back : List Piece) : Prop :=
  front.getLast? = some (.char '\r') ∧ back.head? = some (.char '\n')

theorem not_splitsBreak_of_not_breaks {front back : List Piece} {piece : Piece}
    (hword : ¬piece.Breaks) : ¬SplitsBreak front (piece :: back) := by
  rintro ⟨-, hfeed⟩
  exact hword (Or.inl (Option.some.inj hfeed))

/--
The layout counts right up to a cut.  The units are those of the pieces since the start of the line,
unless the cut splits a line break.
-/
structure Counted (text : Bytes) (front back : List Piece) : Prop where
  line : (placeAfter {} front back).line =
    Position.wrap (Text.breaksUpTo text (encode front).length).length
  character : ¬SplitsBreak front back → ∃ before line, front = before ++ line ∧
    (encode before).length = Text.lineStart text (encode front).length ∧
    (placeAfter {} front back).character = Position.wrap (units line).length

namespace Counted

variable {text : Bytes} {front back : List Piece} {piece : Piece}

theorem start (text : Bytes) (back : List Piece) : Counted text [] back :=
  ⟨rfl, fun _ => ⟨[], [], rfl, rfl, rfl⟩⟩

/-- Behind a character that breaks no line, the line is the same and has the units of it more. -/
theorem word (h : Counted text front (piece :: back))
    (hsplit : decode text = front ++ piece :: back) (hword : ¬piece.Breaks) :
    Counted text (front ++ [piece]) back := by
  have hfeed : piece ≠ .char '\n' := fun hf => hword (Or.inl hf)
  have hreturn : piece ≠ .char '\r' := fun hr => hword (Or.inr hr)
  have hpast : placeAfter {} (front ++ [piece]) back =
      (placeAfter {} front (piece :: back)).shift piece.units := by
    rw [placeAfter_concat, Position.past,
      if_neg (by simp [Piece.isLineFeed, Piece.isLoneReturn, hfeed, hreturn]), if_neg hreturn]
  have hbreaks := breaksUpTo_of_not_breaks hsplit hword
  constructor
  · rw [hpast, hbreaks]
    exact h.line
  · intro _
    obtain ⟨before, line, rfl, hstart, hcharacter⟩ :=
      h.character (not_splitsBreak_of_not_breaks hword)
    refine ⟨before, line ++ [piece], List.append_assoc .., ?_, ?_⟩
    · rw [Text.lineStart, hbreaks]
      exact hstart
    · rw [hpast, units_append, units_singleton, List.length_append, length_utf16,
        ← Position.wrap_wrap_add, ← hcharacter]
      rfl

/-- A piece that is a line break, or a half of one, is a single byte, behind which one may end. -/
theorem breaksUpTo_of_breaks (hsplit : decode text = front ++ piece :: back)
    (hbreak : piece.Breaks) :
    (encode (front ++ [piece])).length = (encode front).length + 1 ∧
    Text.breaksUpTo text (encode (front ++ [piece])).length =
      Text.breaksUpTo text (encode front).length ++
        if piece.isLineFeed || piece.isLoneReturn back then [(encode front).length + 1]
        else [] := by
  have hlength : (encode (front ++ [piece])).length = (encode front).length + 1 := by
    simp [length_bytes_of_breaks hbreak]
  refine ⟨hlength, ?_⟩
  rw [hlength, Text.breaksUpTo_succ, breakEndsAt_of_breaks hsplit hbreak]

/-- Behind a piece that ends a line break, a new line starts. -/
theorem lineEnd (h : Counted text front (piece :: back))
    (hsplit : decode text = front ++ piece :: back) (hbreak : piece.Breaks)
    (hends : piece.isLineFeed || piece.isLoneReturn back) :
    Counted text (front ++ [piece]) back := by
  have hpast : placeAfter {} (front ++ [piece]) back =
      (placeAfter {} front (piece :: back)).nextLine := by
    rw [placeAfter_concat, Position.past, if_pos hends]
  obtain ⟨hlength, hbreaks⟩ := breaksUpTo_of_breaks hsplit hbreak
  rw [if_pos hends] at hbreaks
  constructor
  · rw [hpast, hbreaks, List.length_append, List.length_singleton, ← Position.wrap_wrap_add,
      ← h.line]
    rfl
  · intro _
    refine ⟨front ++ [piece], [], (List.append_nil _).symm, ?_, ?_⟩
    · rw [Text.lineStart, hbreaks, List.getLastD_concat, hlength]
    · rw [hpast]
      rfl

/-- Between a carriage return and its line feed nothing has been counted yet. -/
theorem carriageReturn (h : Counted text front (piece :: back))
    (hsplit : decode text = front ++ piece :: back) (hbreak : piece.Breaks)
    (hends : ¬(piece.isLineFeed || piece.isLoneReturn back)) :
    Counted text (front ++ [piece]) back := by
  have hreturn : piece = .char '\r' :=
    hbreak.resolve_left fun hfeed => hends (by simp [Piece.isLineFeed, hfeed])
  have hfeed : back.head? = some (.char '\n') := by
    have hnext : back.head?.any Piece.isLineFeed := by
      simpa [Piece.isLineFeed, Piece.isLoneReturn, hreturn] using hends
    obtain ⟨next, hhead, hisFeed⟩ := (Option.any_eq_true ..).mp hnext
    rw [hhead, of_decide_eq_true hisFeed]
  obtain ⟨-, hbreaks⟩ := breaksUpTo_of_breaks hsplit hbreak
  rw [if_neg hends, List.append_nil] at hbreaks
  constructor
  · rw [placeAfter_concat, Position.past, if_neg hends, if_pos hreturn, h.line, hbreaks]
  · intro hwhole
    exact absurd ⟨by simp [hreturn], hfeed⟩ hwhole

end Counted

/-- The layout counts right up to every cut. -/
theorem counted (text : Bytes) (front : List Piece) :
    ∀ back, decode text = front ++ back → Counted text front back := by
  induction front using List.reverseRecOn with
  | nil => intro back _; exact .start text back
  | append_singleton front piece ih =>
      intro back hsplit
      rw [List.append_assoc, List.singleton_append] at hsplit
      have h := ih (piece :: back) hsplit
      by_cases hbreak : piece.Breaks
      · by_cases hends : piece.isLineFeed || piece.isLoneReturn back
        · exact h.lineEnd hsplit hbreak hends
        · exact h.carriageReturn hsplit hbreak hends
      · exact h.word hsplit hbreak

/-! ### Places -/

section Places

variable {text : Bytes} {front back : List Piece}

theorem slice_of_split {before line : List Piece} (hsplit : decode text = before ++ line ++ back) :
    Text.slice text (encode before).length (encode (before ++ line)).length = encode line := by
  have htext : text = encode (before ++ line) ++ encode back := by
    rw [← encode_append, ← hsplit, encode_decode]
  unfold Text.slice
  rw [htext, List.take_left, encode_append, List.drop_left]

/-- The units before a cut are those of the pieces since the start of the line. -/
theorem character_place {before line : List Piece} (hsplit : decode text = before ++ line ++ back)
    (hstart : (encode before).length = Text.lineStart text (encode (before ++ line)).length) :
    (Text.place text (encode (before ++ line)).length).character = (units line).length := by
  show (units (decode (Text.slice text (Text.lineStart text _) _))).length = _
  rw [← hstart, slice_of_split hsplit, decode_encode_middle hsplit]

/-- The layout is at the place of a cut, but for wrapping. -/
theorem place_of_split (hsplit : decode text = front ++ back) (hwhole : ¬SplitsBreak front back) :
    ∃ before line, front = before ++ line ∧
      (encode before).length = Text.lineStart text (encode front).length ∧
      (Text.place text (encode front).length).character = (units line).length ∧
      placeAfter {} front back =
        ⟨Position.wrap (Text.place text (encode front).length).line,
          Position.wrap (Text.place text (encode front).length).character⟩ := by
  have h := counted text front back hsplit
  obtain ⟨before, line, rfl, hstart, hcharacter⟩ := h.character hwhole
  have hunits := character_place hsplit hstart
  refine ⟨before, line, rfl, hstart, hunits, ?_⟩
  show _ = Position.mk (Position.wrap (Text.breaksUpTo text _).length) _
  rw [hunits, ← h.line, ← hcharacter]

/-- Behind a character that breaks no line, the line is the same and has its units more. -/
theorem place_behind {piece : Piece} (hsplit : decode text = front ++ piece :: back)
    (hword : ¬piece.Breaks) :
    Text.place text (encode (front ++ [piece])).length =
      ⟨(Text.place text (encode front).length).line,
        (Text.place text (encode front).length).character + piece.units⟩ := by
  obtain ⟨before, line, rfl, hstart, hunits, -⟩ :=
    place_of_split hsplit (not_splitsBreak_of_not_breaks hword)
  have hbreaks := breaksUpTo_of_not_breaks hsplit hword
  have hcut : decode text = before ++ (line ++ [piece]) ++ back := by
    rw [hsplit]
    simp
  rw [List.append_assoc] at hbreaks ⊢
  have hcharacter := character_place hcut (by rw [hstart, Text.lineStart, Text.lineStart, hbreaks])
  rw [units_append, units_singleton, List.length_append, length_utf16, ← hunits] at hcharacter
  rw [← hcharacter]
  exact congrArg (Position.mk · _) (congrArg List.length hbreaks)

/-- A line and a character are never further on than the offset. -/
theorem place_le (text : Bytes) (o : Nat) :
    (Text.place text o).line ≤ o + 1 ∧ (Text.place text o).character ≤ o := by
  constructor
  · have hle := List.length_filter_le (Text.breakEndsAt text) (List.range (o + 1))
    rwa [List.length_range] at hle
  · have hle := length_units_le (decode (Text.slice text (Text.lineStart text o) o))
    rw [encode_decode] at hle
    refine Nat.le_trans hle ?_
    rw [Text.slice, List.length_drop, List.length_take]
    omega

theorem lt_length_of_split {piece : Piece} (h : decode text = front ++ piece :: back) :
    (encode front).length < text.length := by
  have hpos := length_bytes_pos piece
  have hlength := congrArg List.length (eq_of_split h)
  rw [List.length_append, List.length_append] at hlength
  omega

/-- In a text that is not too long, nothing wraps. -/
theorem Cut.position {i k : Nat} {piece : Piece} (h : Cut text i front piece back k)
    (hsize : text.length < UInt32.size) :
    (Document.ofText text).positions[i]? = some (Text.place text (encode front).length) := by
  have hlt := lt_length_of_split h.split
  obtain ⟨hline, hcharacter⟩ := place_le text (encode front).length
  obtain ⟨-, -, -, -, -, hplace⟩ :=
    place_of_split h.split (not_splitsBreak_of_not_breaks h.word)
  rw [h.getElem?_positions, hplace, Position.wrap_of_lt (by omega), Position.wrap_of_lt (by omega)]

/-- A byte of the program has the place of its character. -/
theorem position_of_belongsTo {i o : Nat} (h : BelongsTo text i o)
    (hsize : text.length < UInt32.size) :
    (Document.ofText text).positions[i]? = some (Text.place text o) := by
  obtain ⟨front, piece, back, k, hcut, rfl⟩ := belongsTo_iff.mp h
  exact hcut.position hsize

end Places

namespace Document

/--
**Places follow the lines and the characters of the text.**  In a text of less than 2³² bytes, every
byte of the program belongs to a character, and wherever that starts, the place of the byte has the
number of line breaks that end there or before as its line, and the number of UTF-16 code units
between the last of them and the character as its character.
-/
theorem positions_follow_text (text : Bytes) (hsize : text.length < UInt32.size) (i : Nat)
    (hi : i < (ofText text).code.length) :
    (∃ o, BelongsTo text i o) ∧
    ∀ o, BelongsTo text i o →
      ∃ p, (ofText text).positions[i]? = some p ∧
        p.line = (Text.breaksUpTo text o).length ∧
        p.character = (units (decode (Text.slice text (Text.lineStart text o) o))).length := by
  rw [code_ofText] at hi
  constructor
  · obtain ⟨front, piece, back, k, hcut⟩ := exists_cut hi
    exact ⟨_, belongsTo_iff.mpr ⟨front, piece, back, k, hcut, rfl⟩⟩
  · intro o hbelongs
    exact ⟨_, position_of_belongsTo hbelongs hsize, rfl, rfl⟩

/--
A wide character, a broken one, a return before a line feed and one by itself: the byte behind them
all is on the third line, and before the breaks the wide character counts for two.
-/
theorem positions_follow_text_across_breaks :
    let text : Bytes := [0xF0, 0x9F, 0x98, 0x80, 0xE2, 0x82, 0x2B, 0x0D, 0x0A, 0x0D, 0x2E]
    (∃ p, (ofText text).positions[6]? = some p ∧ p.line = 0 ∧ p.character = 4) ∧
      ∃ p, (ofText text).positions[7]? = some p ∧ p.line = 2 ∧ p.character = 0 := by
  intro text
  have hplus : BelongsTo text 6 6 :=
    ⟨.char '+', 6, ⟨[.char '😀', .stray 0xE2, .stray 0x82],
        [.char '\r', .char '\n', .char '\r', .char '.'], by decide, by decide⟩, by decide,
      by decide, ⟨0x2B, by decide, by decide⟩, by decide⟩
  have hpoint : BelongsTo text 7 10 :=
    ⟨.char '.', 10, ⟨[.char '😀', .stray 0xE2, .stray 0x82, .char '+', .char '\r', .char '\n',
        .char '\r'], [], by decide, by decide⟩, by decide, by decide,
      ⟨0x2E, by decide, by decide⟩, by decide⟩
  constructor
  · obtain ⟨p, hp, hline, hcharacter⟩ :=
      (positions_follow_text text (by decide) 6 (by decide)).2 6 hplus
    exact ⟨p, hp, hline.trans (by decide), hcharacter.trans (by decide)⟩
  · obtain ⟨p, hp, hline, hcharacter⟩ :=
      (positions_follow_text text (by decide) 7 (by decide)).2 10 hpoint
    exact ⟨p, hp, hline.trans (by decide), hcharacter.trans (by decide)⟩

end Document

end TimeTape
