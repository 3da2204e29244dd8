/-
The lines of an input, and what they put into a cell.

An input is cut behind every line feed, and what is behind the last one is a line too unless it is
empty.  A source that is read line by line gives these lines in this order and then nothing, which
reads like an empty line.

`Denotes` says which number a line stands for without saying how it is found: the line breaks at its
end do not count, and of the rest only the first character does, if one can be read there.
-/
import TimeTape.Machine.Step
import TimeTape.Proofs.Utf8
import Mathlib.Data.List.DropRight
import Mathlib.Data.List.TakeDrop

namespace TimeTape

namespace Text

/-! ### Lines -/

/-- The lines of a text, each with the line feed that ends it. -/
def lines : Bytes → List Bytes
  | [] => []
  | b :: rest =>
    if b = lineFeed then [b] :: lines rest
    else
      match lines rest with
      | [] => [[b]]
      | line :: more => (b :: line) :: more

theorem lines_eq_nil {text : Bytes} : lines text = [] ↔ text = [] := by
  cases text with
  | nil => simp [lines]
  | cons b rest =>
      unfold lines
      split
      · simp
      · split <;> simp

/-- No byte is lost between the lines. -/
theorem flatten_lines (text : Bytes) : (lines text).flatten = text := by
  induction text with
  | nil => rfl
  | cons b rest ih =>
      unfold lines
      split
      · simp [ih]
      · split
        · rename_i hnone
          simp [lines_eq_nil.mp hnone]
        · rename_i line more hlines
          rw [hlines] at ih
          simpa using ih

/-- A line without a line feed in it is not cut. -/
theorem lines_of_clean {text : Bytes} (hclean : lineFeed ∉ text) (hne : text ≠ []) :
    lines text = [text] := by
  induction text with
  | nil => exact absurd rfl hne
  | cons b rest ih =>
      rw [List.mem_cons, not_or] at hclean
      obtain ⟨hb, hrest⟩ := hclean
      unfold lines
      rw [if_neg fun h => hb h.symm]
      cases rest with
      | nil => rfl
      | cons b' rest => rw [ih hrest (by simp)]

/-- A text is cut behind its first line feed. -/
theorem lines_of_split {line rest : Bytes} (hclean : lineFeed ∉ line) :
    lines (line ++ lineFeed :: rest) = (line ++ [lineFeed]) :: lines rest := by
  induction line with
  | nil => simp [lines]
  | cons b line ih =>
      rw [List.mem_cons, not_or] at hclean
      obtain ⟨hb, hline⟩ := hclean
      rw [List.cons_append, lines, if_neg fun h => hb h.symm, ih hline]
      rfl

end Text

namespace Source

/-! ### Reading them -/

theorem not_mem_of_cutLine {text : Bytes} (h : cutLine text = none) : Text.lineFeed ∉ text := by
  unfold cutLine at h
  rw [List.span_eq_takeWhile_dropWhile] at h
  split at h
  · rename_i line hline
    have hall := List.dropWhile_eq_nil_iff.mp (congrArg Prod.snd hline)
    intro hmem
    simpa using hall _ hmem
  · cases h

theorem exists_of_cutLine {text line rest : Bytes} (h : cutLine text = some (line, rest)) :
    ∃ body, Text.lineFeed ∉ body ∧ line = body ++ [Text.lineFeed] ∧
      text = body ++ Text.lineFeed :: rest := by
  unfold cutLine at h
  rw [List.span_eq_takeWhile_dropWhile] at h
  split at h
  · cases h
  · rename_i body stop rest' hspan
    obtain ⟨hbody, hrest⟩ := Prod.mk.inj hspan
    obtain ⟨rfl, rfl⟩ := Prod.mk.inj (Option.some.inj h)
    have hstop : stop = Text.lineFeed := by
      have hhead := List.head?_dropWhile_not (fun b => decide (b ≠ Text.lineFeed)) text
      rw [hrest] at hhead
      simpa using hhead
    have htext := List.takeWhile_append_dropWhile (p := fun b => decide (b ≠ Text.lineFeed))
      (l := text)
    rw [hbody, hrest, hstop] at htext
    refine ⟨body, ?_, by rw [hstop], htext.symm⟩
    intro hmem
    rw [← hbody] at hmem
    simpa using List.mem_takeWhile_imp hmem

theorem cutLine_of_split {body : Bytes} (hclean : Text.lineFeed ∉ body) (rest : Bytes) :
    cutLine (body ++ Text.lineFeed :: rest) = some (body ++ [Text.lineFeed], rest) := by
  have hall : ∀ b ∈ body, decide (b ≠ Text.lineFeed) = true := by
    intro b hb
    exact decide_eq_true (ne_of_mem_of_not_mem hb hclean)
  rw [cutLine, List.span_eq_takeWhile_dropWhile, List.takeWhile_append_of_pos hall,
    List.dropWhile_append_of_pos hall]
  simp

/-- What comes behind a line is not looked at when it is read. -/
theorem cutLine_append {text line rest : Bytes} (h : cutLine text = some (line, rest))
    (more : Bytes) : cutLine (text ++ more) = some (line, rest ++ more) := by
  obtain ⟨body, hclean, rfl, rfl⟩ := exists_of_cutLine h
  rw [List.append_assoc, List.cons_append]
  exact cutLine_of_split hclean (rest ++ more)

/-- A line that is read is the first of those that are left, or nothing if there is none. -/
theorem exists_readLine {s : Source} (hfailure : s.failure = none) :
    ∃ text, s.readLine = ({ s with text }, .ok ((Text.lines s.text).head?.getD [])) ∧
      Text.lines text = (Text.lines s.text).tail := by
  unfold readLine
  cases hcut : cutLine s.text with
  | some cut =>
      obtain ⟨line, rest⟩ := cut
      obtain ⟨body, hclean, rfl, htext⟩ := exists_of_cutLine hcut
      have hlines : Text.lines (body ++ Text.lineFeed :: rest) = _ := Text.lines_of_split hclean
      refine ⟨rest, ?_, ?_⟩
      · rw [htext, hlines]
        rfl
      · rw [htext, hlines]
        rfl
  | none =>
      have hclean := not_mem_of_cutLine hcut
      refine ⟨[], ?_, ?_⟩
      · rw [hfailure]
        by_cases hempty : s.text = []
        · rw [hempty]
          rfl
        · rw [Text.lines_of_clean hclean hempty]
          rfl
      · by_cases hempty : s.text = []
        · rw [hempty]
          rfl
        · rw [Text.lines_of_clean hclean hempty]
          rfl

end Source

/-! ### What a line stands for -/

namespace Text

variable {line body : Bytes} {v : UInt8}

/-- The line is `body` with line breaks behind it, and none of them is left in front of those. -/
structure Trims (line body : Bytes) : Prop where
  ending : ∃ breaks, line = body ++ breaks ∧ ∀ b ∈ breaks, isLineBreak b = true
  last : ∀ b, body.getLast? = some b → isLineBreak b = false

/--
The number that a line puts into a cell.  It is that of the first character modulo 256.  If what
stands there is no character it counts as U+FFFD, and if nothing does, as zero.
-/
inductive Denotes (line : Bytes) : UInt8 → Prop where
  | blank (trimmed : Trims line []) : Denotes line 0
  | character (c : Char) (rest : Bytes) (trimmed : Trims line (String.utf8EncodeChar c ++ rest)) :
      Denotes line (UInt8.ofNat (c.toNat % 256))
  | malformed (body : Bytes) (trimmed : Trims line body) (nonempty : body ≠ [])
      (unreadable : ∀ c rest, body ≠ String.utf8EncodeChar c ++ rest) :
      Denotes line (UInt8.ofNat (0xFFFD % 256))

theorem trimLineEnd_eq_rdropWhile (line : Bytes) : trimLineEnd line = line.rdropWhile isLineBreak :=
  rfl

theorem trims_trimLineEnd (line : Bytes) : Trims line (trimLineEnd line) := by
  constructor
  · refine ⟨line.rtakeWhile isLineBreak, ?_, fun b hb => List.mem_rtakeWhile_imp hb⟩
    rw [trimLineEnd_eq_rdropWhile, List.rdropWhile_append_rtakeWhile]
  · intro b hb
    have hne : trimLineEnd line ≠ [] := by
      intro hnil
      simp [hnil] at hb
    have hlast := List.rdropWhile_last_not isLineBreak line hne
    rw [List.getLast?_eq_some_getLast hne, Option.some.injEq] at hb
    subst hb
    exact Bool.not_eq_true _ ▸ hlast

/-- There is only one way to trim a line. -/
theorem Trims.eq (h : Trims line body) : trimLineEnd line = body := by
  obtain ⟨⟨breaks, rfl, hbreaks⟩, hlast⟩ := h
  rw [trimLineEnd_eq_rdropWhile]
  induction breaks using List.reverseRecOn with
  | nil =>
      rw [List.append_nil, List.rdropWhile_eq_self_iff]
      intro hne
      simpa using hlast _ (List.getLast?_eq_some_getLast hne)
  | append_singleton breaks b ih =>
      rw [← List.append_assoc, List.rdropWhile_concat_pos _ _ _ (hbreaks b (by simp))]
      exact ih fun b' hb' => hbreaks b' (by simp [hb'])

theorem decodeLine_of_blank (h : Trims line []) : Machine.decodeLine line = 0 := by
  rw [Machine.decodeLine, h.eq]
  rfl

theorem decodeLine_of_pieces (h : Trims line body) {first : Utf8.Piece} {rest : List Utf8.Piece}
    (hpieces : Utf8.decode body = first :: rest) :
    Machine.decodeLine line = UInt8.ofNat (first.shown.toNat % 256) := by
  rw [Machine.decodeLine, h.eq, hpieces]
  apply UInt8.toNat_inj.mp
  simp

/-- **A line stands for the number that reading it puts into the cell, and for no other.** -/
theorem denotes_iff : Denotes line v ↔ v = Machine.decodeLine line := by
  have hunread : (Utf8.Piece.stray 0).shown.toNat = 0xFFFD := Utf8.val_ofNat (by decide)
  constructor
  · intro h
    cases h with
    | blank trimmed => exact (decodeLine_of_blank trimmed).symm
    | character c rest trimmed =>
        exact (decodeLine_of_pieces trimmed (Utf8.decode_utf8EncodeChar_append c rest)).symm
    | malformed body trimmed nonempty unreadable =>
        have hbody := Utf8.encode_decode body
        cases hpieces : Utf8.decode body with
        | nil =>
            rw [hpieces] at hbody
            exact absurd hbody.symm nonempty
        | cons first rest =>
            rw [hpieces, Utf8.encode_cons] at hbody
            cases first with
            | char c => exact absurd hbody.symm (unreadable c _)
            | stray b =>
                rw [decodeLine_of_pieces trimmed hpieces, ← hunread]
                rfl
  · rintro rfl
    have htrimmed := trims_trimLineEnd line
    have hbody := Utf8.encode_decode (trimLineEnd line)
    cases hpieces : Utf8.decode (trimLineEnd line) with
    | nil =>
        rw [hpieces, Utf8.encode_nil] at hbody
        rw [← hbody] at htrimmed
        rw [decodeLine_of_blank htrimmed]
        exact .blank htrimmed
    | cons first rest =>
        rw [decodeLine_of_pieces htrimmed hpieces]
        cases first with
        | char c =>
            rw [hpieces, Utf8.encode_cons] at hbody
            rw [← hbody] at htrimmed
            exact .character c _ htrimmed
        | stray b =>
            have hnone : ∀ c rest', trimLineEnd line ≠ String.utf8EncodeChar c ++ rest' := by
              intro c rest' heq
              rw [heq, Utf8.decode_utf8EncodeChar_append] at hpieces
              cases (List.cons.inj hpieces).1
            have hne : trimLineEnd line ≠ [] := by
              intro hnil
              rw [hnil] at hpieces
              cases hpieces
            have hmalformed := Denotes.malformed _ htrimmed hne hnone
            rw [← hunread] at hmalformed
            exact hmalformed

end Text

end TimeTape
