/-
Which brackets belong together.

The scan pairs brackets with a stack and never looks back.  What it is meant to compute can be said
without a stack: two brackets belong together if the text between them is balanced, that is, if it
has as many openers as closers and no front part of it has more closers than openers.

One half is about reading ahead.  Balanced text leaves the waiting openers as it found them, so a
closer behind it meets the opener in front of it.  The other half is about what the stack holds.
`Stacked` says that after each waiting opener, up to the one that waits above it or to the end,
stands balanced text.  So the opener on top has nothing but balanced text between it and the next
byte, and when that byte is a closer the two belong together.
-/
import TimeTape.Proofs.Brackets

namespace TimeTape

/-! ### Balanced text -/

/-- The number of openers in a text. -/
def openerCount (text : Bytes) : Nat :=
  text.count Instruction.opener.glyph

/-- The number of closers in a text. -/
def closerCount (text : Bytes) : Nat :=
  text.count Instruction.closer.glyph

section Counts

variable (a b : Bytes)

@[simp] theorem openerCount_append : openerCount (a ++ b) = openerCount a + openerCount b :=
  List.count_append

@[simp] theorem closerCount_append : closerCount (a ++ b) = closerCount a + closerCount b :=
  List.count_append

@[simp] theorem openerCount_opener : openerCount [Instruction.opener.glyph] = 1 := rfl

@[simp] theorem closerCount_opener : closerCount [Instruction.opener.glyph] = 0 := rfl

@[simp] theorem openerCount_closer : openerCount [Instruction.closer.glyph] = 0 := rfl

@[simp] theorem closerCount_closer : closerCount [Instruction.closer.glyph] = 1 := rfl

theorem openerCount_other {g : UInt8} (h : g ≠ Instruction.opener.glyph) : openerCount [g] = 0 :=
  List.count_singleton.trans (if_neg (by simpa using h))

theorem closerCount_other {g : UInt8} (h : g ≠ Instruction.closer.glyph) : closerCount [g] = 0 :=
  List.count_singleton.trans (if_neg (by simpa using h))

end Counts

/-- No front part of the text has more closers than openers. -/
def ClosesItsOwn (text : Bytes) : Prop :=
  ∀ front, front <+: text → closerCount front ≤ openerCount front

/-- The text closes every bracket that it opens, and no other. -/
structure Balanced (text : Bytes) : Prop where
  even : openerCount text = closerCount text
  closesItsOwn : ClosesItsOwn text

theorem ClosesItsOwn.append {a b : Bytes} (ha : Balanced a) (hb : ClosesItsOwn b) :
    ClosesItsOwn (a ++ b) := by
  rintro front ⟨back, hsplit⟩
  rcases List.append_eq_append_iff.mp hsplit with ⟨rest, rfl, -⟩ | ⟨rest, rfl, hrest⟩
  · exact ha.closesItsOwn front (List.prefix_append front rest)
  · have hle := hb rest ⟨back, hrest.symm⟩
    have heven := ha.even
    rw [openerCount_append, closerCount_append]
    omega

namespace Balanced

variable {a b body : Bytes} {g : UInt8}

theorem nil : Balanced [] := by
  refine ⟨rfl, ?_⟩
  intro front hfront
  rw [List.prefix_nil.mp hfront]
  exact Nat.le_refl 0

theorem append (ha : Balanced a) (hb : Balanced b) : Balanced (a ++ b) := by
  refine ⟨?_, .append ha hb.closesItsOwn⟩
  rw [openerCount_append, closerCount_append, ha.even, hb.even]

theorem other (ho : g ≠ Instruction.opener.glyph) (hc : g ≠ Instruction.closer.glyph) :
    Balanced [g] := by
  refine ⟨by rw [openerCount_other ho, closerCount_other hc], ?_⟩
  intro front hfront
  have hle := hfront.sublist.count_le Instruction.closer.glyph
  have hzero := closerCount_other hc
  exact Nat.le_trans hle (Nat.le_trans (Nat.le_of_eq hzero) (Nat.zero_le _))

/-- Balanced text stays balanced between an opener and its closer. -/
theorem loop (h : Balanced body) :
    Balanced (Instruction.opener.glyph :: (body ++ [Instruction.closer.glyph])) := by
  have hcons : ∀ t : Bytes, Instruction.opener.glyph :: t = [Instruction.opener.glyph] ++ t :=
    fun _ => rfl
  have heven := h.even
  refine ⟨?_, ?_⟩
  · rw [hcons]
    simp only [openerCount_append, closerCount_append, openerCount_opener, openerCount_closer,
      closerCount_opener, closerCount_closer]
    omega
  · intro front hfront
    rcases List.prefix_cons_iff.mp hfront with rfl | ⟨t, rfl, ht⟩
    · exact Nat.le_refl 0
    · rw [hcons, openerCount_append, closerCount_append, openerCount_opener, closerCount_opener]
      rcases List.prefix_concat_iff.mp ht with rfl | hbody
      · -- Only the whole of it has the closer, and the opener makes up for it.
        rw [openerCount_append, closerCount_append, closerCount_closer, openerCount_closer]
        omega
      · have hle := h.closesItsOwn t hbody
        omega

end Balanced

/-- What stands in a program strictly between two places. -/
def between (code : Bytes) (i j : Nat) : Bytes :=
  (code.take j).drop (i + 1)

/-- The opener at `i` and the closer at `j` belong together. -/
structure Encloses (code : Bytes) (i j : Nat) : Prop where
  lt : i < j
  opener : code[i]? = some Instruction.opener.glyph
  closer : code[j]? = some Instruction.closer.glyph
  balanced : Balanced (between code i j)

theorem drop_of_getElem? {code : Bytes} {i : Nat} {g : UInt8} (h : code[i]? = some g) :
    code.drop i = g :: code.drop (i + 1) := by
  rw [List.drop_eq_getElem?_toList_append, h]
  rfl

/-- A program falls apart at two brackets that belong together. -/
theorem Encloses.exists_split {code : Bytes} {i j : Nat} (h : Encloses code i j) :
    ∃ front body back, Balanced body ∧ front.length = i ∧ front.length + 1 + body.length = j ∧
      code = front ++ Instruction.opener.glyph :: (body ++ Instruction.closer.glyph :: back) := by
  have hlt := h.lt
  have hj := (List.getElem?_eq_some_iff.mp h.closer).1
  have hopener : (code.take j)[i]? = some Instruction.opener.glyph := by
    rw [List.getElem?_take_of_lt hlt]
    exact h.opener
  refine ⟨code.take i, between code i j, code.drop (j + 1), h.balanced, ?_, ?_, ?_⟩
  · rw [List.length_take]
    omega
  · rw [between, List.length_drop, List.length_take, List.length_take]
    omega
  · have hfront : code.take i = (code.take j).take i := by
      rw [List.take_take, Nat.min_eq_left (Nat.le_of_lt hlt)]
    rw [between, ← drop_of_getElem? h.closer, ← List.cons_append, ← drop_of_getElem? hopener,
      hfront, ← List.append_assoc, List.take_append_drop, List.take_append_drop]

/-! ### Reading balanced text -/

namespace Pairing

/-- Text that closes its own brackets leaves the openers that wait before it at the bottom. -/
theorem exists_waiting_foldl (text : Bytes) (h : ClosesItsOwn text) (s : Scan) :
    ∃ opened, (text.foldl Scan.next s).waiting = opened ++ s.waiting ∧
      opened.length + closerCount text = openerCount text := by
  induction text using List.reverseRecOn with
  | nil => exact ⟨[], rfl, rfl⟩
  | append_singleton text b ih =>
      obtain ⟨opened, hwaiting, hlength⟩ :=
        ih fun front hfront => h front (hfront.trans (List.prefix_append text [b]))
      have hle := h _ (List.prefix_refl (text ++ [b]))
      rw [openerCount_append, closerCount_append] at hle ⊢
      rw [List.foldl_append, List.foldl_cons, List.foldl_nil]
      by_cases ho : b = Instruction.opener.glyph
      · subst ho
        rw [Scan.next_opener, openerCount_opener, closerCount_opener]
        exact ⟨_ :: opened, by rw [hwaiting, List.cons_append], by rw [List.length_cons]; omega⟩
      by_cases hc : b = Instruction.closer.glyph
      · subst hc
        rw [openerCount_closer, closerCount_closer] at hle ⊢
        -- There is something to close, since the text closes none of the openers before it.
        cases opened with
        | nil =>
            rw [List.length_nil] at hlength
            omega
        | cons o opened =>
            rw [Scan.next_closer (hwaiting.trans (List.cons_append ..))]
            rw [List.length_cons] at hlength
            exact ⟨opened, rfl, by omega⟩
      · rw [Scan.next_other _ ho hc, openerCount_other ho, closerCount_other hc]
        exact ⟨opened, hwaiting, hlength⟩

/-- Balanced text leaves the waiting openers as they are. -/
theorem waiting_foldl_of_balanced {text : Bytes} (h : Balanced text) (s : Scan) :
    (text.foldl Scan.next s).waiting = s.waiting := by
  obtain ⟨opened, hwaiting, hlength⟩ := exists_waiting_foldl text h.closesItsOwn s
  have heven := h.even
  rw [hwaiting, List.eq_nil_of_length_eq_zero (by omega : opened.length = 0), List.nil_append]

/-- The scan pairs brackets that belong together. -/
theorem mem_pairs_of_encloses {code : Bytes} {i j : Nat} (h : Encloses code i j) :
    (i, j) ∈ (scan code).pairs := by
  obtain ⟨front, body, back, hbody, rfl, rfl, rfl⟩ := h.exists_split
  exact mem_pairs_of_waiting (waiting_foldl_of_balanced hbody) front back

/-! ### What the stack holds -/

/--
The openers on the stack after `code` has been read, innermost first: behind each of them stands
balanced text, up to the next one or to the end.
-/
def Stacked (code : Bytes) : List Nat → Prop
  | [] => True
  | o :: below =>
    code[o]? = some Instruction.opener.glyph ∧ Balanced (code.drop (o + 1)) ∧
      Stacked (code.take o) below

theorem Stacked.append {code text : Bytes} {waiting : List Nat} (h : Stacked code waiting)
    (htext : Balanced text) : Stacked (code ++ text) waiting := by
  cases waiting with
  | nil => trivial
  | cons o below =>
      obtain ⟨hopener, hbalanced, hbelow⟩ := h
      have hlt := (List.getElem?_eq_some_iff.mp hopener).1
      refine ⟨?_, ?_, ?_⟩
      · rw [List.getElem?_append_left hlt]
        exact hopener
      · rw [List.drop_append_of_le_length hlt]
        exact hbalanced.append htext
      · rw [List.take_append_of_le_length (Nat.le_of_lt hlt)]
        exact hbelow

theorem Stacked.push {code : Bytes} {waiting : List Nat} (h : Stacked code waiting) :
    Stacked (code ++ [Instruction.opener.glyph]) (code.length :: waiting) := by
  refine ⟨by simp, ?_, ?_⟩
  · rw [List.drop_of_length_le (by simp)]
    exact Balanced.nil
  · rw [List.take_left]
    exact h

/-- A closer takes the top off the stack, and with it a balanced piece of text. -/
theorem Stacked.pop {code : Bytes} {o : Nat} {below : List Nat} (h : Stacked code (o :: below)) :
    Stacked (code ++ [Instruction.closer.glyph]) below := by
  obtain ⟨hopener, hbalanced, hbelow⟩ := h
  have hsplit : code ++ [Instruction.closer.glyph] = code.take o ++
      Instruction.opener.glyph :: (code.drop (o + 1) ++ [Instruction.closer.glyph]) := by
    rw [← List.cons_append, ← drop_of_getElem? hopener, ← List.append_assoc,
      List.take_append_drop]
  rw [hsplit]
  exact hbelow.append hbalanced.loop

/-- The opener on top of the stack belongs together with a closer that comes next. -/
theorem Stacked.encloses {code : Bytes} {o : Nat} {below : List Nat}
    (h : Stacked code (o :: below)) :
    Encloses (code ++ [Instruction.closer.glyph]) o code.length := by
  obtain ⟨hopener, hbalanced, -⟩ := h
  have hlt := (List.getElem?_eq_some_iff.mp hopener).1
  refine ⟨hlt, ?_, by simp, ?_⟩
  · rw [List.getElem?_append_left hlt]
    exact hopener
  · rw [between, List.take_left]
    exact hbalanced

end Pairing

theorem Encloses.append {code : Bytes} {i j : Nat} (h : Encloses code i j) (text : Bytes) :
    Encloses (code ++ text) i j := by
  obtain ⟨hlt, hopener, hcloser, hbalanced⟩ := h
  have hj := (List.getElem?_eq_some_iff.mp hcloser).1
  refine ⟨hlt, ?_, ?_, ?_⟩
  · rw [List.getElem?_append_left (Nat.lt_trans hlt hj)]
    exact hopener
  · rw [List.getElem?_append_left hj]
    exact hcloser
  · rw [between, List.take_append_of_le_length (Nat.le_of_lt hj)]
    exact hbalanced

namespace Pairing

/-- A scan that has paired nothing but brackets that belong together. -/
structure Scan.Sound (code : Bytes) (s : Scan) : Prop where
  stacked : Stacked code s.waiting
  paired : ∀ p ∈ s.pairs, Encloses code p.1 p.2

theorem Scan.Sound.next {code : Bytes} {s : Scan} (h : Scan.Sound code s)
    (hindex : s.index = code.length) (b : UInt8) : Scan.Sound (code ++ [b]) (s.next b) := by
  have hkept : ∀ p ∈ s.pairs, Encloses (code ++ [b]) p.1 p.2 :=
    fun p hp => (h.paired p hp).append [b]
  by_cases ho : b = Instruction.opener.glyph
  · subst ho
    rw [Scan.next_opener, hindex]
    exact ⟨h.stacked.push, hkept⟩
  by_cases hc : b = Instruction.closer.glyph
  · subst hc
    cases hw : s.waiting with
    | nil =>
        rw [Scan.next_stray hw]
        exact ⟨by rw [hw]; trivial, hkept⟩
    | cons o below =>
        have hstacked : Stacked code (o :: below) := hw ▸ h.stacked
        rw [Scan.next_closer hw, hindex]
        refine ⟨hstacked.pop, ?_⟩
        intro p hp
        rcases List.mem_cons.mp hp with rfl | hp'
        · exact hstacked.encloses
        · exact hkept p hp'
  · rw [Scan.next_other s ho hc]
    exact ⟨h.stacked.append (.other ho hc), hkept⟩

theorem scan_sound (code : Bytes) : Scan.Sound code (scan code) := by
  induction code using List.reverseRecOn with
  | nil => exact ⟨trivial, by intro p hp; cases hp⟩
  | append_singleton code b ih =>
      rw [scan_concat]
      exact ih.next (scan_complete code).index b

/-- The scan pairs exactly the brackets that belong together. -/
theorem mem_pairs_iff {code : Bytes} {i j : Nat} :
    (i, j) ∈ (scan code).pairs ↔ Encloses code i j :=
  ⟨fun h => (scan_sound code).paired (i, j) h, mem_pairs_of_encloses⟩

/-- The openers that wait to the end are those that belong together with nothing. -/
theorem mem_waiting_iff {code : Bytes} {i : Nat} :
    i ∈ (scan code).waiting ↔
      code[i]? = some Instruction.opener.glyph ∧ ∀ j, ¬Encloses code i j := by
  have hcomplete := scan_complete code
  have hdisjoint := (List.nodup_append.mp hcomplete.openersOnce).2.2
  constructor
  · intro hi
    refine ⟨(hcomplete.openers i).mp (List.mem_append_left _ hi), ?_⟩
    intro j hj
    exact hdisjoint i hi i (List.mem_map.mpr ⟨(i, j), mem_pairs_iff.mpr hj, rfl⟩) rfl
  · rintro ⟨hglyph, halone⟩
    rcases List.mem_append.mp ((hcomplete.openers i).mpr hglyph) with hi | hi
    · exact hi
    · obtain ⟨⟨o, c⟩, hp, rfl⟩ := List.mem_map.mp hi
      exact absurd (mem_pairs_iff.mp hp) (halone c)

/-- The strays are the closers that belong together with nothing. -/
theorem mem_strays_iff {code : Bytes} {j : Nat} :
    j ∈ (scan code).strays ↔
      code[j]? = some Instruction.closer.glyph ∧ ∀ i, ¬Encloses code i j := by
  have hcomplete := scan_complete code
  constructor
  · intro hj
    refine ⟨(hcomplete.closers j).mp (List.mem_append_left _ hj), ?_⟩
    intro i hi
    exact not_stray_of_pair (mem_pairs_iff.mpr hi) hj
  · rintro ⟨hglyph, halone⟩
    rcases List.mem_append.mp ((hcomplete.closers j).mpr hglyph) with hj | hj
    · exact hj
    · obtain ⟨⟨o, c⟩, hp, rfl⟩ := List.mem_map.mp hj
      exact absurd (mem_pairs_iff.mp hp) (halone o)

end Pairing

/-! ### The tables -/

namespace Pairing

variable {code : Bytes} {i j : Int}

theorem forward_iff_encloses :
    (ofBytes code).forward[i]? = some (some j) ↔
      ∃ a b : Nat, i = a ∧ j = b ∧ Encloses code a b := by
  rw [forward_eq_partner_iff]
  constructor
  · rintro ⟨⟨a, b⟩, hp, rfl, rfl⟩
    exact ⟨a, b, rfl, rfl, mem_pairs_iff.mp hp⟩
  · rintro ⟨a, b, rfl, rfl, h⟩
    exact ⟨(a, b), mem_pairs_iff.mpr h, rfl, rfl⟩

theorem backward_iff_encloses :
    (ofBytes code).backward[j]? = some (some i) ↔
      ∃ a b : Nat, i = a ∧ j = b ∧ Encloses code a b := by
  rw [backward_eq_partner_iff, ← forward_eq_partner_iff, forward_iff_encloses]

theorem forward_none_iff :
    (ofBytes code).forward[i]? = some none ↔
      ∃ a : Nat, i = a ∧ code[a]? = some Instruction.opener.glyph ∧ ∀ b, ¬Encloses code a b := by
  rw [forward_eq_none_iff]
  constructor
  · rintro ⟨a, ha, rfl⟩
    exact ⟨a, rfl, mem_waiting_iff.mp ha⟩
  · rintro ⟨a, rfl, ha⟩
    exact ⟨a, mem_waiting_iff.mpr ha, rfl⟩

theorem backward_none_iff :
    (ofBytes code).backward[j]? = some none ↔
      ∃ b : Nat, j = b ∧ code[b]? = some Instruction.closer.glyph ∧ ∀ a, ¬Encloses code a b := by
  rw [backward_eq_none_iff]
  constructor
  · rintro ⟨b, hb, rfl⟩
    exact ⟨b, rfl, mem_strays_iff.mp hb⟩
  · rintro ⟨b, rfl, hb⟩
    exact ⟨b, mem_strays_iff.mpr hb, rfl⟩

/-- The openers are what the one table is filed under. -/
theorem mem_forward_iff :
    i ∈ (ofBytes code).forward ↔ ∃ a : Nat, i = a ∧ code[a]? = some Instruction.opener.glyph := by
  rw [Std.TreeMap.mem_iff_isSome_getElem?, Option.isSome_iff_exists]
  constructor
  · rintro ⟨p, hp⟩
    cases p with
    | none =>
        obtain ⟨a, rfl, ha, -⟩ := forward_none_iff.mp hp
        exact ⟨a, rfl, ha⟩
    | some j =>
        obtain ⟨a, b, rfl, -, hab⟩ := forward_iff_encloses.mp hp
        exact ⟨a, rfl, hab.opener⟩
  · rintro ⟨a, rfl, ha⟩
    exact forward_of_opener ha

/-- The closers are what the other is filed under. -/
theorem mem_backward_iff :
    j ∈ (ofBytes code).backward ↔ ∃ b : Nat, j = b ∧ code[b]? = some Instruction.closer.glyph := by
  rw [Std.TreeMap.mem_iff_isSome_getElem?, Option.isSome_iff_exists]
  constructor
  · rintro ⟨p, hp⟩
    cases p with
    | none =>
        obtain ⟨b, rfl, hb, -⟩ := backward_none_iff.mp hp
        exact ⟨b, rfl, hb⟩
    | some i =>
        obtain ⟨a, b, -, rfl, hab⟩ := backward_iff_encloses.mp hp
        exact ⟨b, rfl, hab.closer⟩
  · rintro ⟨b, rfl, hb⟩
    exact backward_of_closer hb

/--
**A pairing is the nesting of the brackets.**  One table is filed under the openers and the other
under the closers, and under nothing else.  Two brackets are filed with each other, in both tables,
exactly when the text between them is balanced, and a bracket is filed without a partner exactly
when there is none with which it could be.
-/
theorem pairing_is_nesting (code : Bytes) :
    let t := ofBytes code
    (∀ i : Int, i ∈ t.forward ↔ ∃ a : Nat, i = a ∧ code[a]? = some Instruction.opener.glyph) ∧
    (∀ j : Int, j ∈ t.backward ↔ ∃ b : Nat, j = b ∧ code[b]? = some Instruction.closer.glyph) ∧
    (∀ i j : Int, t.forward[i]? = some (some j) ↔
      ∃ a b : Nat, i = a ∧ j = b ∧ Encloses code a b) ∧
    (∀ i j : Int, t.backward[j]? = some (some i) ↔
      ∃ a b : Nat, i = a ∧ j = b ∧ Encloses code a b) ∧
    (∀ i : Int, t.forward[i]? = some none ↔
      ∃ a : Nat, i = a ∧ code[a]? = some Instruction.opener.glyph ∧ ∀ b, ¬Encloses code a b) ∧
    (∀ j : Int, t.backward[j]? = some none ↔
      ∃ b : Nat, j = b ∧ code[b]? = some Instruction.closer.glyph ∧ ∀ a, ¬Encloses code a b) := by
  intro t
  exact ⟨fun _ => mem_forward_iff, fun _ => mem_backward_iff, fun _ _ => forward_iff_encloses,
    fun _ _ => backward_iff_encloses, fun _ => forward_none_iff, fun _ => backward_none_iff⟩

end Pairing

end TimeTape
