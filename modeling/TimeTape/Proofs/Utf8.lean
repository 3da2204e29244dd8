/-
Cutting a text into characters loses nothing.

A character is recognised by its lead byte and the payloads of the bytes behind it, and those
numbers determine the bytes again, since overlong spellings are refused.  A byte that is on its own
belongs to no character, so it is not a plain seven-bit one.

The point of both facts is that a byte below 0x80 in a text is a character there, and never a part
of another one.

A text may be cut between two characters: each half is then cut into pieces as it was in the whole.
For the part behind the cut that is how reading goes on.  The part before it is shorter than the
text it was read from, but a character is found without looking past its last byte, and what is no
character does not become one by being cut short.

In the other direction, the bytes that spell a character are read as that character wherever they
stand, so a text that was written character by character is read back.
-/
import TimeTape.Text.Utf8

namespace TimeTape.Utf8

/-! ### One character -/

theorem payload?_eq_some {b : UInt8} {x : Nat} (h : payload? b = some x) :
    x < 64 ∧ b.toNat = x + 128 := by
  have hbits : ∀ n : Fin 256, UInt8.ofNat n &&& 0xC0 = 0x80 → 128 ≤ n.val ∧ n.val < 192 := by
    decide +kernel
  unfold payload? at h
  split at h
  · rename_i hb
    have hrange : 128 ≤ b.toNat ∧ b.toNat < 192 :=
      hbits ⟨b.toNat, b.toNat_lt⟩ (by simpa using hb)
    rw [Option.some.injEq] at h
    omega
  · simp at h

theorem val_ofNat {n : Nat} (h : n.isValidChar) : (Char.ofNat n).val.toNat = n := by
  rw [Char.ofNat, dif_pos h]
  rfl

theorem charFrom?_eq_some {least n : Nat} {c : Char} (h : charFrom? least n = some c) :
    least ≤ n ∧ n < 0x110000 ∧ c.val.toNat = n := by
  unfold charFrom? at h
  split at h
  · rename_i hn
    obtain ⟨hleast, hvalid⟩ := hn
    rw [Option.some.injEq] at h
    subst h
    have hlt : n < 0x110000 := by
      rcases hvalid with hlow | ⟨-, hhigh⟩ <;> omega
    exact ⟨hleast, hlt, val_ofNat hvalid⟩
  · simp at h

theorem ofNat_eq_of_toNat {b : UInt8} {n : Nat} (h : b.toNat = n) : UInt8.ofNat n = b := by
  rw [← h, UInt8.ofNat_toNat]

section Spelling

variable {lead a b d : UInt8} {x y z : Nat} {c : Char}

theorem utf8EncodeChar_one (hlead : lead.toNat < 128) :
    String.utf8EncodeChar (Char.ofNat lead.toNat) = [lead] := by
  simp only [String.utf8EncodeChar, val_ofNat (n := lead.toNat) (Or.inl (by omega))]
  rw [if_pos (by omega), UInt8.ofNat_toNat]

theorem utf8EncodeChar_two (hlo : 192 ≤ lead.toNat) (hhi : lead.toNat < 224)
    (hx : payload? a = some x) (hc : charFrom? 0x80 (lead.toNat % 32 * 64 + x) = some c) :
    String.utf8EncodeChar c = [lead, a] := by
  obtain ⟨hx, ha⟩ := payload?_eq_some hx
  obtain ⟨hleast, -, hval⟩ := charFrom?_eq_some hc
  simp only [String.utf8EncodeChar, hval]
  rw [if_neg (by omega), if_pos (by omega), ofNat_eq_of_toNat (b := lead) (by omega),
    ofNat_eq_of_toNat (b := a) (by omega)]

theorem utf8EncodeChar_three (hlo : 224 ≤ lead.toNat) (hhi : lead.toNat < 240)
    (hx : payload? a = some x) (hy : payload? b = some y)
    (hc : charFrom? 0x800 ((lead.toNat % 16 * 64 + x) * 64 + y) = some c) :
    String.utf8EncodeChar c = [lead, a, b] := by
  obtain ⟨hx, ha⟩ := payload?_eq_some hx
  obtain ⟨hy, hb⟩ := payload?_eq_some hy
  obtain ⟨hleast, -, hval⟩ := charFrom?_eq_some hc
  simp only [String.utf8EncodeChar, hval]
  rw [if_neg (by omega), if_neg (by omega), if_pos (by omega),
    ofNat_eq_of_toNat (b := lead) (by omega), ofNat_eq_of_toNat (b := a) (by omega),
    ofNat_eq_of_toNat (b := b) (by omega)]

theorem utf8EncodeChar_four (hlo : 240 ≤ lead.toNat) (hhi : lead.toNat < 248)
    (hx : payload? a = some x) (hy : payload? b = some y) (hz : payload? d = some z)
    (hc : charFrom? 0x10000 (((lead.toNat % 8 * 64 + x) * 64 + y) * 64 + z) = some c) :
    String.utf8EncodeChar c = [lead, a, b, d] := by
  obtain ⟨hx, ha⟩ := payload?_eq_some hx
  obtain ⟨hy, hb⟩ := payload?_eq_some hy
  obtain ⟨hz, hd⟩ := payload?_eq_some hz
  obtain ⟨hleast, hmost, hval⟩ := charFrom?_eq_some hc
  simp only [String.utf8EncodeChar, hval]
  rw [if_neg (by omega), if_neg (by omega), if_neg (by omega),
    ofNat_eq_of_toNat (b := lead) (by omega), ofNat_eq_of_toNat (b := a) (by omega),
    ofNat_eq_of_toNat (b := b) (by omega), ofNat_eq_of_toNat (b := d) (by omega)]

end Spelling

/-- The character at a lead byte is spelled by that byte and the ones it takes behind it. -/
theorem utf8EncodeChar_of_character? {lead : UInt8} {rest : Bytes} {c : Char} {more : Nat}
    (h : character? lead rest = some (c, more)) :
    String.utf8EncodeChar c = lead :: rest.take more := by
  unfold character? at h
  split at h
  · simp only [Option.some.injEq, Prod.mk.injEq] at h
    obtain ⟨rfl, rfl⟩ := h
    exact utf8EncodeChar_one ‹_›
  split at h
  · simp at h
  rename_i hplain hlead
  split at h
  · split at h
    · simp only [Option.bind_eq_bind, Option.bind_eq_some_iff, Option.some.injEq,
        Prod.mk.injEq] at h
      obtain ⟨x, hx, c', hc, rfl, rfl⟩ := h
      exact utf8EncodeChar_two (Nat.not_lt.mp hlead) ‹_› hx hc
    · simp at h
  rename_i hlead
  split at h
  · split at h
    · simp only [Option.bind_eq_bind, Option.bind_eq_some_iff, Option.some.injEq,
        Prod.mk.injEq] at h
      obtain ⟨x, hx, y, hy, c', hc, rfl, rfl⟩ := h
      exact utf8EncodeChar_three (Nat.not_lt.mp hlead) ‹_› hx hy hc
    · simp at h
  rename_i hlead
  split at h
  · split at h
    · simp only [Option.bind_eq_bind, Option.bind_eq_some_iff, Option.some.injEq,
        Prod.mk.injEq] at h
      obtain ⟨x, hx, y, hy, z, hz, c', hc, rfl, rfl⟩ := h
      exact utf8EncodeChar_four (Nat.not_lt.mp hlead) ‹_› hx hy hz hc
    · simp at h
  · simp at h

/-- A byte that starts no character is not a plain one. -/
theorem ge_of_character?_eq_none {lead : UInt8} {rest : Bytes} (h : character? lead rest = none) :
    0x80 ≤ lead.toNat := by
  rcases Nat.lt_or_ge lead.toNat 0x80 with hlt | hge
  · unfold character? at h
    rw [if_pos (show lead < 0x80 from hlt)] at h
    simp at h
  · exact hge

/-! ### Whole texts -/

/-- The pieces of a text whose first bytes are skipped spell what is behind those. -/
theorem encode_decodeFrom (s : Bytes) : ∀ skip, encode (decodeFrom skip s) = s.drop skip := by
  induction s with
  | nil =>
      intro skip
      cases skip <;> rfl
  | cons b rest ih =>
      intro skip
      cases skip with
      | succ skip =>
          rw [decodeFrom, List.drop_succ_cons]
          exact ih skip
      | zero =>
          rw [decodeFrom, List.drop_zero]
          cases hc : character? b rest with
          | none =>
              show b :: encode (decodeFrom 0 rest) = b :: rest
              rw [ih 0, List.drop_zero]
          | some found =>
              -- What is skipped next are the bytes that the character has taken.
              obtain ⟨c, more⟩ := found
              show String.utf8EncodeChar c ++ encode (decodeFrom more rest) = b :: rest
              rw [ih more, utf8EncodeChar_of_character? hc, List.cons_append,
                List.take_append_drop]

/-- **Writing the pieces of a text back gives the text.** -/
theorem encode_decode (s : Bytes) : encode (decode s) = s :=
  encode_decodeFrom s 0

theorem ge_of_stray_mem_decodeFrom {b : UInt8} (s : Bytes) :
    ∀ skip, .stray b ∈ decodeFrom skip s → 0x80 ≤ b.toNat := by
  induction s with
  | nil =>
      intro skip h
      simp [decodeFrom] at h
  | cons lead rest ih =>
      intro skip h
      cases skip with
      | succ skip => exact ih skip h
      | zero =>
          rw [decodeFrom] at h
          cases hc : character? lead rest with
          | none =>
              rw [hc] at h
              rcases List.mem_cons.mp h with hhead | htail
              · rw [Piece.stray.injEq] at hhead
                rw [hhead]
                exact ge_of_character?_eq_none hc
              · exact ih 0 htail
          | some found =>
              obtain ⟨c, more⟩ := found
              rw [hc] at h
              rcases List.mem_cons.mp h with hhead | htail
              · simp at hhead
              · exact ih more htail

/-- A plain byte of a character is the whole character. -/
theorem eq_of_mem_utf8EncodeChar {c : Char} {b : UInt8} (hb : b ∈ String.utf8EncodeChar c)
    (hlt : b.toNat < 0x80) : c.val.toNat = b.toNat := by
  simp only [String.utf8EncodeChar] at hb
  split at hb
  · rename_i hc
    rw [List.mem_singleton] at hb
    rw [hb, UInt8.toNat_ofNat_of_lt' (Nat.lt_of_le_of_lt hc (by decide))]
  · -- Every byte of a longer spelling is at least 0x80.
    exfalso
    split at hb
    · simp only [List.mem_cons, List.not_mem_nil, or_false] at hb
      rcases hb with rfl | rfl <;> rw [UInt8.toNat_ofNat'] at hlt <;> omega
    · split at hb
      · simp only [List.mem_cons, List.not_mem_nil, or_false] at hb
        rcases hb with rfl | rfl | rfl <;> rw [UInt8.toNat_ofNat'] at hlt <;> omega
      · simp only [List.mem_cons, List.not_mem_nil, or_false] at hb
        rcases hb with rfl | rfl | rfl | rfl <;> rw [UInt8.toNat_ofNat'] at hlt <;> omega

/-- A plain byte in a piece of a text is the whole piece. -/
theorem eq_char_of_mem_bytes {s : Bytes} {p : Piece} (hp : p ∈ decode s) {b : UInt8}
    (hb : b ∈ p.bytes) (hlt : b.toNat < 0x80) : p = .char (Char.ofNat b.toNat) := by
  cases p with
  | char c =>
      have hval := eq_of_mem_utf8EncodeChar hb hlt
      rw [← hval, Piece.char.injEq]
      exact (Char.ofNat_toNat c).symm
  | stray x =>
      have hge := ge_of_stray_mem_decodeFrom s 0 hp
      rw [Piece.bytes, List.mem_singleton] at hb
      subst hb
      omega

/-! ### Cutting between two characters -/

theorem bytes_ne_nil (p : Piece) : p.bytes ≠ [] := by
  cases p with
  | char c => exact String.utf8EncodeChar_ne_nil
  | stray b => exact List.cons_ne_nil b []

theorem length_bytes_pos (p : Piece) : 0 < p.bytes.length :=
  List.length_pos_iff.mpr (bytes_ne_nil p)

@[simp] theorem encode_nil : encode [] = [] := rfl

@[simp] theorem encode_cons (p : Piece) (rest : List Piece) :
    encode (p :: rest) = p.bytes ++ encode rest := rfl

@[simp] theorem encode_append (front back : List Piece) :
    encode (front ++ back) = encode front ++ encode back :=
  List.flatMap_append

theorem decodeFrom_eq_decode_drop (s : Bytes) :
    ∀ skip, decodeFrom skip s = decode (s.drop skip) := by
  induction s with
  | nil => intro skip; cases skip <;> rfl
  | cons b rest ih =>
      intro skip
      cases skip with
      | zero => rfl
      | succ skip => exact ih skip

/-- A character is found without looking past its last byte. -/
theorem character?_take_append {lead : UInt8} {rest : Bytes} {c : Char} {more : Nat}
    (h : character? lead rest = some (c, more)) :
    more ≤ rest.length ∧ ∀ other, character? lead (rest.take more ++ other) = some (c, more) := by
  unfold character? at h ⊢
  split at h
  · rename_i hlead
    simp only [Option.some.injEq, Prod.mk.injEq] at h
    obtain ⟨rfl, rfl⟩ := h
    exact ⟨Nat.zero_le _, fun other => if_pos hlead⟩
  rename_i hplain
  split at h
  · cases h
  rename_i htail
  split at h
  · rename_i hlead
    split at h
    · simp only [Option.bind_eq_bind, Option.bind_eq_some_iff, Option.some.injEq,
        Prod.mk.injEq] at h
      obtain ⟨x, hx, c', hc, rfl, rfl⟩ := h
      refine ⟨by simp, fun other => ?_⟩
      rw [if_neg hplain, if_neg htail, if_pos hlead]
      simp [hx, hc]
    · cases h
  rename_i htwo
  split at h
  · rename_i hlead
    split at h
    · simp only [Option.bind_eq_bind, Option.bind_eq_some_iff, Option.some.injEq,
        Prod.mk.injEq] at h
      obtain ⟨x, hx, y, hy, c', hc, rfl, rfl⟩ := h
      refine ⟨by simp, fun other => ?_⟩
      rw [if_neg hplain, if_neg htail, if_neg htwo, if_pos hlead]
      simp [hx, hy, hc]
    · cases h
  rename_i hthree
  split at h
  · rename_i hlead
    split at h
    · simp only [Option.bind_eq_bind, Option.bind_eq_some_iff, Option.some.injEq,
        Prod.mk.injEq] at h
      obtain ⟨x, hx, y, hy, z, hz, c', hc, rfl, rfl⟩ := h
      refine ⟨by simp, fun other => ?_⟩
      rw [if_neg hplain, if_neg htail, if_neg htwo, if_neg hthree, if_pos hlead]
      simp [hx, hy, hz, hc]
    · cases h
  · cases h

/-- What is no character does not become one by being cut short. -/
theorem character?_eq_none_of_append {lead : UInt8} {rest other : Bytes}
    (h : character? lead (rest ++ other) = none) : character? lead rest = none := by
  cases hc : character? lead rest with
  | none => rfl
  | some found =>
      obtain ⟨c, more⟩ := found
      have hlonger := (character?_take_append hc).2 (rest.drop more ++ other)
      rw [← List.append_assoc, List.take_append_drop, h] at hlonger
      cases hlonger

/-- The first piece of a text stays what it is in front of a part of what came behind it. -/
theorem decode_bytes_append {s : Bytes} {p : Piece} {rest : List Piece} (h : decode s = p :: rest)
    {part : Bytes} (hpart : part <+: encode rest) :
    decode (p.bytes ++ part) = p :: decode part := by
  obtain ⟨other, hother⟩ := hpart
  cases s with
  | nil => cases h
  | cons lead tail =>
      unfold decode decodeFrom at h
      cases hc : character? lead tail with
      | none =>
          rw [hc] at h
          obtain ⟨rfl, rfl⟩ := List.cons.inj h
          have htail : character? lead (part ++ other) = none := by
            rw [hother, encode_decodeFrom]
            exact hc
          show decode (lead :: part) = _
          rw [decode, decodeFrom, character?_eq_none_of_append htail]
          rfl
      | some found =>
          obtain ⟨c, more⟩ := found
          rw [hc] at h
          obtain ⟨rfl, rfl⟩ := List.cons.inj h
          obtain ⟨hle, hfound⟩ := character?_take_append hc
          have hlength : (tail.take more).length = more := by
            rw [List.length_take]
            omega
          show decode (String.utf8EncodeChar c ++ part) = _
          rw [utf8EncodeChar_of_character? hc, List.cons_append, decode, decodeFrom, hfound part]
          show Piece.char c :: decodeFrom more (tail.take more ++ part) = _
          rw [decodeFrom_eq_decode_drop, List.drop_left' hlength]

/-- What stands behind a cut is read as it was. -/
theorem decode_encode_back {s : Bytes} {front back : List Piece} (h : decode s = front ++ back) :
    decode (encode back) = back := by
  induction front generalizing s with
  | nil => rw [← List.nil_append back, ← h, encode_decode]
  | cons p front ih =>
      have hfirst : decode (encode (p :: (front ++ back))) = p :: decode (encode (front ++ back)) :=
        decode_bytes_append h (List.prefix_refl _)
      rw [← List.cons_append, ← h, encode_decode, h] at hfirst
      exact ih (List.cons.inj hfirst).2.symm

/-- What stands before a cut is read as it was. -/
theorem decode_encode_front {s : Bytes} {front back : List Piece} (h : decode s = front ++ back) :
    decode (encode front) = front := by
  induction front generalizing s with
  | nil => rfl
  | cons p front ih =>
      have hpart : encode front <+: encode (front ++ back) := by
        rw [encode_append]
        exact List.prefix_append _ _
      have hsplit : decode s = [p] ++ (front ++ back) := h
      have hrest := decode_encode_back hsplit
      rw [encode_cons, decode_bytes_append h hpart, ih hrest]

/-- A part of a text between two cuts is read as it was. -/
theorem decode_encode_middle {s : Bytes} {front middle back : List Piece}
    (h : decode s = front ++ middle ++ back) : decode (encode middle) = middle :=
  decode_encode_back (decode_encode_front h)

/-! ### Characters that have been written -/

section Reading

variable {lead a b d : UInt8} {x y z : Nat} {c : Char} (rest : Bytes)

theorem character?_one (hlead : lead.toNat < 128) :
    character? lead rest = some (Char.ofNat lead.toNat, 0) :=
  if_pos hlead

theorem character?_two (hlo : 192 ≤ lead.toNat) (hhi : lead.toNat < 224)
    (hx : payload? a = some x) (hc : charFrom? 0x80 (lead.toNat % 32 * 64 + x) = some c) :
    character? lead (a :: rest) = some (c, 1) := by
  have hplain : ¬lead < 0x80 := Nat.not_lt.mpr (show 128 ≤ lead.toNat by omega)
  have htail : ¬lead < 0xC0 := Nat.not_lt.mpr hlo
  have htwo : lead < 0xE0 := hhi
  unfold character?
  rw [if_neg hplain, if_neg htail, if_pos htwo]
  simp [hx, hc]

theorem character?_three (hlo : 224 ≤ lead.toNat) (hhi : lead.toNat < 240)
    (hx : payload? a = some x) (hy : payload? b = some y)
    (hc : charFrom? 0x800 ((lead.toNat % 16 * 64 + x) * 64 + y) = some c) :
    character? lead (a :: b :: rest) = some (c, 2) := by
  have hplain : ¬lead < 0x80 := Nat.not_lt.mpr (show 128 ≤ lead.toNat by omega)
  have htail : ¬lead < 0xC0 := Nat.not_lt.mpr (show 192 ≤ lead.toNat by omega)
  have htwo : ¬lead < 0xE0 := Nat.not_lt.mpr hlo
  have hthree : lead < 0xF0 := hhi
  unfold character?
  rw [if_neg hplain, if_neg htail, if_neg htwo, if_pos hthree]
  simp [hx, hy, hc]

theorem character?_four (hlo : 240 ≤ lead.toNat) (hhi : lead.toNat < 248)
    (hx : payload? a = some x) (hy : payload? b = some y) (hz : payload? d = some z)
    (hc : charFrom? 0x10000 (((lead.toNat % 8 * 64 + x) * 64 + y) * 64 + z) = some c) :
    character? lead (a :: b :: d :: rest) = some (c, 3) := by
  have hplain : ¬lead < 0x80 := Nat.not_lt.mpr (show 128 ≤ lead.toNat by omega)
  have htail : ¬lead < 0xC0 := Nat.not_lt.mpr (show 192 ≤ lead.toNat by omega)
  have htwo : ¬lead < 0xE0 := Nat.not_lt.mpr (show 224 ≤ lead.toNat by omega)
  have hthree : ¬lead < 0xF0 := Nat.not_lt.mpr hlo
  have hfour : lead < 0xF8 := hhi
  unfold character?
  rw [if_neg hplain, if_neg htail, if_neg htwo, if_neg hthree, if_pos hfour]
  simp [hx, hy, hz, hc]

end Reading

theorem payload?_ofNat (n : Nat) : payload? (UInt8.ofNat (n % 64 + 128)) = some (n % 64) := by
  have hbits : ∀ x : Fin 64, payload? (UInt8.ofNat (x + 128)) = some x.val := by decide +kernel
  exact hbits ⟨n % 64, Nat.mod_lt n (by omega)⟩

theorem charFrom?_val {least n : Nat} {c : Char} (hleast : least ≤ n) (hn : n = c.val.toNat) :
    charFrom? least n = some c := by
  subst hn
  rw [charFrom?, if_pos ⟨hleast, c.valid⟩]
  exact congrArg some (Char.ofNat_toNat c)

/-- The bytes that spell a character are read as that character, whatever comes behind them. -/
theorem exists_character? (c : Char) :
    ∃ lead tail, String.utf8EncodeChar c = lead :: tail ∧
      ∀ rest, character? lead (tail ++ rest) = some (c, tail.length) := by
  have hmost : c.val.toNat < 0x110000 := by
    rcases c.valid with hlow | ⟨-, hhigh⟩ <;> omega
  have hlead : ∀ n < 256, (UInt8.ofNat n).toNat = n := fun n hn => UInt8.toNat_ofNat_of_lt' hn
  unfold String.utf8EncodeChar
  simp only
  generalize hval : c.val.toNat = v at hmost
  split
  · have hone := hlead v (by omega)
    refine ⟨_, _, rfl, fun rest => ?_⟩
    rw [List.nil_append, character?_one _ (by omega), hone, ← hval]
    exact congrArg (fun c => some (c, 0)) (Char.ofNat_toNat c)
  split
  · have htwo := hlead (v / 64 % 32 + 192) (by omega)
    refine ⟨_, _, rfl, fun rest => character?_two rest (by omega) (by omega) (payload?_ofNat v) ?_⟩
    exact charFrom?_val (by omega) (by omega)
  split
  · have hthree := hlead (v / 4096 % 16 + 224) (by omega)
    refine ⟨_, _, rfl, fun rest => character?_three rest (by omega) (by omega)
      (payload?_ofNat (v / 64)) (payload?_ofNat v) ?_⟩
    exact charFrom?_val (by omega) (by omega)
  · have hfour := hlead (v / 262144 % 8 + 240) (by omega)
    refine ⟨_, _, rfl, fun rest => character?_four rest (by omega) (by omega)
      (payload?_ofNat (v / 4096)) (payload?_ofNat (v / 64)) (payload?_ofNat v) ?_⟩
    exact charFrom?_val (by omega) (by omega)

/-- A character that has been written is read back. -/
theorem decode_utf8EncodeChar_append (c : Char) (rest : Bytes) :
    decode (String.utf8EncodeChar c ++ rest) = .char c :: decode rest := by
  obtain ⟨lead, tail, hspelled, hread⟩ := exists_character? c
  rw [hspelled, List.cons_append, decode, decodeFrom, hread rest]
  simp only
  rw [decodeFrom_eq_decode_drop, List.drop_left]

/-- A text of characters is read as those characters. -/
theorem decode_flatMap_utf8EncodeChar (chars : List Char) :
    decode (chars.flatMap String.utf8EncodeChar) = chars.map .char := by
  induction chars with
  | nil => rfl
  | cons c chars ih => rw [List.flatMap_cons, decode_utf8EncodeChar_append, ih, List.map_cons]

theorem chars?_flatMap_utf8EncodeChar (chars : List Char) :
    chars? (chars.flatMap String.utf8EncodeChar) = some chars := by
  rw [chars?, decode_flatMap_utf8EncodeChar]
  induction chars with
  | nil => rfl
  | cons c chars ih => simp [ih]

end TimeTape.Utf8
