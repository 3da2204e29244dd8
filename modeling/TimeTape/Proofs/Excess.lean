/-
The unmatched brackets as records of an excess.

Reading from the front, a closer goes astray when nothing waits, and nothing waits exactly when the
excess of closers over openers is as high as it has ever been.  So the strays are the places where
that excess reaches a height for the first time.

Reading from the end, an opener waits for good exactly when the text behind it closes no bracket but
its own.  Then every piece behind it, cut off at the front, takes as many openers with it as closers
or more, and so the waiting openers are the records of the other excess.

The first record is one, and every record is one more than that before it, so there are as many of
them as the greatest excess says.
-/
import TimeTape.Proofs.Unmatched

namespace TimeTape

/-- By how much the closers of a text outnumber its openers. -/
def closerExcess (text : Bytes) : Int :=
  closerCount text - openerCount text

/-- By how much the openers of a text outnumber its closers. -/
def openerExcess (text : Bytes) : Int :=
  openerCount text - closerCount text

theorem closerExcess_append (a b : Bytes) :
    closerExcess (a ++ b) = closerExcess a + closerExcess b := by
  simp only [closerExcess, closerCount_append, openerCount_append]
  omega

theorem openerExcess_append (a b : Bytes) :
    openerExcess (a ++ b) = openerExcess a + openerExcess b := by
  simp only [openerExcess, closerCount_append, openerCount_append]
  omega

theorem openerExcess_nonneg_iff {text : Bytes} :
    0 ≤ openerExcess text ↔ closerCount text ≤ openerCount text := by
  rw [openerExcess]
  omega

/-- A rest has the excess of the whole and, on top of it, what the front part lacks. -/
theorem openerExcess_eq (front back : Bytes) :
    openerExcess back = openerExcess (front ++ back) + closerExcess front := by
  rw [openerExcess_append, openerExcess, openerExcess, closerExcess]
  omega

/-! ### The greatest excess -/

/-- The depth of the mirror image is the greatest excess of closers in a front part. -/
theorem depth_mirror_isGreatest (code : Bytes) :
    IsGreatest {e : Int | ∃ front, front <+: code ∧ e = closerExcess front}
      (depth (mirror code)) := by
  obtain ⟨⟨image, himage, hexcess⟩, -⟩ := depth_isGreatest (mirror code)
  constructor
  · refine ⟨mirror image, ?_, ?_⟩
    · have hfront := himage.map mirrorGlyph
      rwa [← mirror, ← mirror, mirror_mirror] at hfront
    · rw [closerExcess, closerCount_mirror, openerCount_mirror]
      exact hexcess
  · rintro e ⟨front, hfront, rfl⟩
    have hle := closerCount_le_depth_mirror hfront
    rw [closerExcess]
    omega

namespace Pairing

variable {code : Bytes} {j : Nat}

theorem length_strays_isGreatest (code : Bytes) :
    IsGreatest {e : Int | ∃ front, front <+: code ∧ e = closerExcess front}
      ((scan code).strays.length) := by
  rw [(scan_measured code).strays]
  exact depth_mirror_isGreatest code

/-- What waits after the whole program makes up for its strays. -/
theorem length_waiting_eq (code : Bytes) :
    ((scan code).waiting.length : Int) = openerExcess code + (scan code).strays.length := by
  have hopeners := (scan_measured code).openers
  have hclosers := (scan_measured code).closers
  rw [openerExcess]
  omega

theorem length_waiting_isGreatest (code : Bytes) :
    IsGreatest {e : Int | ∃ back, back <:+ code ∧ e = openerExcess back}
      ((scan code).waiting.length) := by
  obtain ⟨⟨front, ⟨back, hsplit⟩, hmost⟩, hall⟩ := length_strays_isGreatest code
  rw [length_waiting_eq]
  constructor
  · refine ⟨back, ⟨front, hsplit⟩, ?_⟩
    rw [openerExcess_eq front back, hsplit, hmost]
  · rintro e ⟨back', ⟨front', hsplit'⟩, rfl⟩
    have hle := hall ⟨front', ⟨back', hsplit'⟩, rfl⟩
    rw [openerExcess_eq front' back', hsplit']
    omega

/-! ### Closers that go astray -/

/-- Nothing waits exactly when the excess of closers is as high as it has ever been. -/
theorem waiting_eq_nil_iff :
    (scan code).waiting = [] ↔ ∀ n, closerExcess (code.take n) ≤ closerExcess code := by
  have hlength := length_waiting_eq code
  obtain ⟨⟨front, hfront, hmost⟩, hall⟩ := length_strays_isGreatest code
  have hopposite : openerExcess code = -closerExcess code := by
    rw [openerExcess, closerExcess]
    omega
  rw [← List.length_eq_zero_iff]
  constructor
  · intro hnone n
    have hle := hall ⟨code.take n, List.take_prefix n code, rfl⟩
    omega
  · intro hrecord
    have hle := hrecord front.length
    rw [← List.prefix_iff_eq_take.mp hfront] at hle
    omega

theorem mem_strays_concat {b : UInt8} :
    j ∈ (scan (code ++ [b])).strays ↔ j ∈ (scan code).strays ∨
      (j = code.length ∧ b = Instruction.closer.glyph ∧ (scan code).waiting = []) := by
  have hindex := (scan_complete code).index
  rw [scan_concat]
  by_cases ho : b = Instruction.opener.glyph
  · subst ho
    rw [Scan.next_opener]
    simp [Instruction.glyph]
  by_cases hc : b = Instruction.closer.glyph
  · subst hc
    cases hw : (scan code).waiting with
    | nil =>
        rw [Scan.next_stray hw, hindex]
        simp [or_comm]
    | cons o below =>
        rw [Scan.next_closer hw]
        simp
  · rw [Scan.next_other _ ho hc]
    simp [hc]

/-- A closer goes astray exactly when nothing waits in front of it. -/
theorem mem_strays_iff_waiting :
    j ∈ (scan code).strays ↔ code[j]? = some Instruction.closer.glyph ∧
      (scan (code.take j)).waiting = [] := by
  induction code using List.reverseRecOn with
  | nil => simp [scan]
  | append_singleton code b ih =>
      rw [mem_strays_concat, ih, getElem?_concat_eq_some]
      by_cases hle : j ≤ code.length
      · rw [List.take_append_of_le_length hle]
        constructor
        · rintro (⟨hglyph, hnone⟩ | ⟨rfl, hglyph, hnone⟩)
          · exact ⟨Or.inl hglyph, hnone⟩
          · exact ⟨Or.inr ⟨rfl, hglyph⟩, by rwa [List.take_length]⟩
        · rintro ⟨hglyph | ⟨rfl, hglyph⟩, hnone⟩
          · exact Or.inl ⟨hglyph, hnone⟩
          · exact Or.inr ⟨rfl, hglyph, by rwa [List.take_length] at hnone⟩
      · have hpast : code[j]? = none := List.getElem?_eq_none (by omega)
        have hne : j ≠ code.length := by omega
        simp [hpast, hne]

/-- So it does exactly where the excess of closers is higher than ever before. -/
theorem mem_strays_iff_record :
    j ∈ (scan code).strays ↔ code[j]? = some Instruction.closer.glyph ∧
      ∀ n ≤ j, closerExcess (code.take n) < closerExcess (code.take (j + 1)) := by
  rw [mem_strays_iff_waiting, waiting_eq_nil_iff]
  refine and_congr_right ?_
  intro hglyph
  have hstep : closerExcess (code.take (j + 1)) = closerExcess (code.take j) + 1 := by
    rw [List.take_add_one, hglyph, closerExcess_append]
    rfl
  rw [hstep]
  constructor
  · intro hrecord n hn
    have hle := hrecord n
    rw [List.take_take, Nat.min_eq_left hn] at hle
    omega
  · intro hrecord n
    have hlt := hrecord (min n j) (Nat.min_le_right n j)
    rw [List.take_take]
    omega

/-! ### Openers that wait for good -/

/-- A text closes nothing but its own brackets, or there is a first closer that does not. -/
theorem closesItsOwn_or_exists (text : Bytes) :
    ClosesItsOwn text ∨
      ∃ body rest, Balanced body ∧ text = body ++ Instruction.closer.glyph :: rest := by
  induction text using List.reverseRecOn with
  | nil => exact Or.inl Balanced.nil.closesItsOwn
  | append_singleton text b ih =>
      rcases ih with hown | ⟨body, rest, hbody, rfl⟩
      · by_cases hfirst : b = Instruction.closer.glyph ∧ openerCount text = closerCount text
        · exact Or.inr ⟨text, [], ⟨hfirst.2, hown⟩, by rw [hfirst.1]⟩
        · refine Or.inl ?_
          intro front hfront
          rcases List.prefix_concat_iff.mp hfront with rfl | hbefore
          · have hle := hown text (List.prefix_refl text)
            rw [openerCount_append, closerCount_append]
            by_cases hc : b = Instruction.closer.glyph
            · have hmore : openerCount text ≠ closerCount text := fun heven => hfirst ⟨hc, heven⟩
              rw [hc, closerCount_closer]
              omega
            · rw [closerCount_other hc]
              omega
          · exact hown front hbefore
      · exact Or.inr ⟨body, rest ++ [b], hbody, by simp⟩

/-- An opener waits for good exactly when the text behind it closes nothing but its own brackets. -/
theorem mem_waiting_iff_closesItsOwn :
    j ∈ (scan code).waiting ↔ code[j]? = some Instruction.opener.glyph ∧
      ClosesItsOwn (code.drop (j + 1)) := by
  constructor
  · intro hwaits
    obtain ⟨hglyph, halone⟩ := mem_waiting_iff.mp hwaits
    refine ⟨hglyph, ?_⟩
    rcases closesItsOwn_or_exists (code.drop (j + 1)) with hown | ⟨body, rest, hbody, hback⟩
    · exact hown
    · -- Otherwise the opener belongs together with the first closer that the text does not answer.
      refine absurd ?_ (halone (j + 1 + body.length))
      have hbetween : between code j (j + 1 + body.length) = body := by
        rw [between, List.drop_take, hback, Nat.add_sub_cancel_left, List.take_left]
      refine ⟨by omega, hglyph, ?_, hbetween.symm ▸ hbody⟩
      rw [← List.getElem?_drop, hback]
      simp
  · rintro ⟨hglyph, hown⟩
    obtain ⟨front, back, rfl, rfl⟩ :
        ∃ front back, j = front.length ∧ code = front ++ Instruction.opener.glyph :: back := by
      have hlt := (List.getElem?_eq_some_iff.mp hglyph).1
      refine ⟨code.take j, code.drop (j + 1), (List.length_take_of_le (Nat.le_of_lt hlt)).symm, ?_⟩
      rw [← drop_of_getElem? hglyph, List.take_append_drop]
    have hback : (front ++ Instruction.opener.glyph :: back).drop (front.length + 1) = back := by
      simp
    rw [hback] at hown
    obtain ⟨opened, hwaiting, -⟩ :=
      exists_waiting_foldl back hown ((scan front).next Instruction.opener.glyph)
    rw [scan, List.foldl_append, List.foldl_cons, ← scan, hwaiting, Scan.next_opener,
      (scan_complete front).index]
    exact List.mem_append_right opened List.mem_cons_self

/-- So it does exactly where the excess of openers, counted from the end, is higher than ever. -/
theorem mem_waiting_iff_record :
    j ∈ (scan code).waiting ↔ code[j]? = some Instruction.opener.glyph ∧
      ∀ n > j, openerExcess (code.drop n) < openerExcess (code.drop j) := by
  rw [mem_waiting_iff_closesItsOwn]
  refine and_congr_right ?_
  intro hglyph
  have hstep : openerExcess (code.drop j) = 1 + openerExcess (code.drop (j + 1)) := by
    rw [drop_of_getElem? hglyph, ← List.singleton_append, openerExcess_append]
    rfl
  have hcut : ∀ n, openerExcess (code.drop (j + 1)) = openerExcess ((code.drop (j + 1)).take n) +
      openerExcess (code.drop (j + 1 + n)) := by
    intro n
    rw [← openerExcess_append, ← List.drop_drop (i := n), List.take_append_drop]
  rw [hstep]
  constructor
  · intro hown n hn
    obtain ⟨n, rfl⟩ := Nat.exists_eq_add_of_le (show j + 1 ≤ n from hn)
    have hle := openerExcess_nonneg_iff.mpr (hown _ (List.take_prefix n (code.drop (j + 1))))
    rw [hcut n]
    omega
  · intro hrecord front hfront
    have hlt := hrecord (j + 1 + front.length) (by omega)
    rw [hcut front.length, ← List.prefix_iff_eq_take.mp hfront] at hlt
    exact openerExcess_nonneg_iff.mp (by omega)

/--
**The unmatched brackets are the records of the excess.**  In ascending order they are closers first
and openers after that.  A closer is among them exactly when the program up to and with it has more
closers in excess of openers than every shorter front part, and an opener exactly when the program
from it on has more openers in excess of closers than every shorter rest.  So there are as many of
either kind as the greatest excess in a front part, or in a rest, says.
-/
theorem unmatched_are_records (code : Bytes) :
    (ofBytes code).unmatched.Pairwise (· < ·) ∧
    ∃ closers openers : List Nat,
      (ofBytes code).unmatched = (closers ++ openers).map Int.ofNat ∧
      (∀ j, j ∈ closers ↔ code[j]? = some Instruction.closer.glyph ∧
        ∀ n ≤ j, closerExcess (code.take n) < closerExcess (code.take (j + 1))) ∧
      (∀ j, j ∈ openers ↔ code[j]? = some Instruction.opener.glyph ∧
        ∀ n > j, openerExcess (code.drop n) < openerExcess (code.drop j)) ∧
      IsGreatest {e : Int | ∃ front, front <+: code ∧ e = closerExcess front} closers.length ∧
      IsGreatest {e : Int | ∃ back, back <:+ code ∧ e = openerExcess back} openers.length := by
  rw [unmatched_eq_loose]
  refine ⟨loose_ascending code, (scan code).strays.reverse, (scan code).waiting.reverse, ?_⟩
  refine ⟨by rw [loose, List.map_append], ?_, ?_, ?_, ?_⟩
  · intro j
    rw [List.mem_reverse]
    exact mem_strays_iff_record
  · intro j
    rw [List.mem_reverse]
    exact mem_waiting_iff_record
  · rw [List.length_reverse]
    exact length_strays_isGreatest code
  · rw [List.length_reverse]
    exact length_waiting_isGreatest code

-- In `}{}}{{` the closer at 2 has a partner, and that at 3 is a record again.
example : (ofBytes [0x7D, 0x7B, 0x7D, 0x7D, 0x7B, 0x7B]).unmatched = [0, 3, 4, 5] :=
  (unmatched_eq_loose _).trans (by decide)

end Pairing

end TimeTape
