/-
How far a tree can travel.

A tree only ever moves to the right, and every cell it moves to is new, hence zero.  So what
follows a move does not depend on anything that came before: if a run passes the same move twice,
it repeats itself from there on and never ends.  A run that ends passes every move of its text at
most once, and the memory pointer cannot get further than the text is long.

`Tree.Trail` records the moves that a run passes, by their index in the text, and forgets the rest
of the memory but the current cell.  `Tidy` is what is shown of it by induction on the tree.  The
last two of its fields are the aim, and the first two carry the induction: a trail is determined by
its first cell, and two trails that share a move end in the same cell.
-/
import TimeTape.Proofs.Loops.Tree
import Mathlib.Data.List.Perm.Subperm

namespace TimeTape.Loops

/-- Repeating something that leaves a trail. -/
inductive Laps (again : UInt8 → Bool) (body : UInt8 → List Nat → UInt8 → Prop) :
    UInt8 → List Nat → UInt8 → Prop
  | last {c c' : UInt8} {V : List Nat} (run : body c V c') (stop : again c' = false) :
      Laps again body c V c'
  | more {c c₁ c' : UInt8} {V W : List Nat} (run : body c V c₁) (go : again c₁ = true)
      (rest : Laps again body c₁ W c') : Laps again body c (V ++ W) c'

/--
Running the tree, whose text starts at index `p`, passes the moves `V` and takes the current cell
from `c` to `c'`.
-/
def Tree.Trail (onNonZero : Bool) : Tree → Nat → UInt8 → List Nat → UInt8 → Prop
  | .done, _, c, V, c' => V = [] ∧ c' = c
  | .byte b rest, p, c, V, c' =>
    if b.1 = Instruction.move.glyph then ∃ W, V = p :: W ∧ rest.Trail onNonZero (p + 1) 0 W c'
    else rest.Trail onNonZero (p + 1) (if b.1 = Instruction.plus.glyph then c + 1 else c) V c'
  | .loop body rest, p, c, V, c' =>
    let q := p + 1 + body.flatten.length + 1
    if c = 0 then rest.Trail onNonZero q c V c'
    else ∃ c₁ V₁ V₂, Laps (goesOn onNonZero) (body.Trail onNonZero (p + 1)) c V₁ c₁ ∧
      rest.Trail onNonZero q c₁ V₂ c' ∧ V = V₁ ++ V₂

/-- What is true of the trails that a piece of text between `lo` and `hi` can leave. -/
structure Tidy (R : UInt8 → List Nat → UInt8 → Prop) (lo hi : Nat) : Prop where
  /-- The first cell determines everything. -/
  unique : ∀ {c V c' W d'}, R c V c' → R c W d' → V = W ∧ c' = d'
  /-- So does any move that is passed, as far as the last cell goes. -/
  merge : ∀ {c V c' d W d' q}, R c V c' → R d W d' → q ∈ V → q ∈ W → c' = d'
  once : ∀ {c V c'}, R c V c' → V.Nodup
  within : ∀ {c V c'}, R c V c' → ∀ q ∈ V, lo ≤ q ∧ q < hi

namespace Tidy

variable {R : UInt8 → List Nat → UInt8 → Prop} {again : UInt8 → Bool} {lo hi : Nat}
  {c c' d d' e : UInt8} {V W : List Nat} {q : Nat}

theorem laps_unique (h : Tidy R lo hi) (hc : Laps again R c V c') :
    ∀ {W d'}, Laps again R c W d' → V = W ∧ c' = d' := by
  induction hc with
  | last run stop =>
      intro W d' hd
      cases hd with
      | last run' stop' => exact h.unique run run'
      | more run' go' rest' =>
          obtain ⟨-, rfl⟩ := h.unique run run'
          exact absurd (stop.symm.trans go') (by simp)
  | more run go rest ih =>
      intro W d' hd
      cases hd with
      | last run' stop' =>
          obtain ⟨-, rfl⟩ := h.unique run run'
          exact absurd (go.symm.trans stop') (by simp)
      | more run' go' rest' =>
          obtain ⟨rfl, rfl⟩ := h.unique run run'
          obtain ⟨rfl, rfl⟩ := ih rest'
          exact ⟨rfl, rfl⟩

/--
If a lap that ends in the cell `e` shares a move with some laps, these come by `e` too.  They go on
from there with a shorter trail, or stop there.
-/
theorem laps_rejoin (h : Tidy R lo hi) (hlap : R c V e) (hV : q ∈ V) (hd : Laps again R d W d') :
    q ∈ W → (again e = false ∧ d' = e) ∨
      (again e = true ∧ ∃ W', W'.length < W.length ∧ Laps again R e W' d') := by
  induction hd with
  | last run stop =>
      intro hW
      have he := h.merge run hlap hW hV
      exact Or.inl ⟨he ▸ stop, he⟩
  | more run go rest ih =>
      intro hW
      rcases List.mem_append.mp hW with hW | hW
      · obtain rfl := h.merge run hlap hW hV
        refine Or.inr ⟨go, _, ?_, rest⟩
        have := List.length_pos_of_mem hW
        rw [List.length_append]
        omega
      · rcases ih hW with hstop | ⟨hgo, W', hlt, hlaps⟩
        · exact Or.inl hstop
        · refine Or.inr ⟨hgo, W', ?_, hlaps⟩
          rw [List.length_append]
          omega

theorem laps_merge (h : Tidy R lo hi) (hc : Laps again R c V c') :
    ∀ {d W d'}, Laps again R d W d' → q ∈ V → q ∈ W → c' = d' := by
  induction hc with
  | last run stop =>
      intro d W d' hd hV hW
      rcases h.laps_rejoin run hV hd hW with ⟨-, he⟩ | ⟨hgo, -⟩
      · exact he.symm
      · exact absurd (stop.symm.trans hgo) (by simp)
  | more run go rest ih =>
      intro d W d' hd hV hW
      rcases List.mem_append.mp hV with hV | hV
      · rcases h.laps_rejoin run hV hd hW with ⟨hstop, -⟩ | ⟨-, W', -, hlaps⟩
        · exact absurd (go.symm.trans hstop) (by simp)
        · exact (h.laps_unique rest hlaps).2
      · exact ih hd hV hW

theorem laps_once (h : Tidy R lo hi) (hc : Laps again R c V c') : V.Nodup := by
  induction hc with
  | last run stop => exact h.once run
  | more run go rest ih =>
      refine List.nodup_append.mpr ⟨h.once run, ih, ?_⟩
      rintro q hV _ hW rfl
      -- The laps that follow would come by their own beginning again, and so would be shorter
      -- than themselves.
      rcases h.laps_rejoin run hV rest hW with ⟨hstop, -⟩ | ⟨-, W', hlt, hlaps⟩
      · exact absurd (go.symm.trans hstop) (by simp)
      · rw [(h.laps_unique rest hlaps).1] at hlt
        omega

theorem laps_within (h : Tidy R lo hi) (hc : Laps again R c V c') :
    ∀ q ∈ V, lo ≤ q ∧ q < hi := by
  induction hc with
  | last run stop => exact h.within run
  | more run go rest ih =>
      intro q hq
      rcases List.mem_append.mp hq with hq | hq
      · exact h.within run q hq
      · exact ih q hq

/-- Repeating something tidy is tidy. -/
theorem laps (h : Tidy R lo hi) (again : UInt8 → Bool) : Tidy (Laps again R) lo hi :=
  ⟨fun hc hd => h.laps_unique hc hd, fun hc hd => h.laps_merge hc hd, h.laps_once, h.laps_within⟩

theorem widen (h : Tidy R lo hi) {lo' hi' : Nat} (hlo : lo' ≤ lo) (hhi : hi ≤ hi') :
    Tidy R lo' hi' := by
  refine ⟨h.unique, h.merge, h.once, ?_⟩
  intro c V c' hc q hq
  have := h.within hc q hq
  omega

/-- Something tidy that is passed over when the cell is zero, before something tidy. -/
theorem branch {S : UInt8 → List Nat → UInt8 → Prop} {mid : Nat} (hR : Tidy R lo mid)
    (hS : Tidy S mid hi) (hlo : lo ≤ mid) (hhi : mid ≤ hi) :
    Tidy (fun c V c' => if c = 0 then S c V c'
      else ∃ c₁ V₁ V₂, R c V₁ c₁ ∧ S c₁ V₂ c' ∧ V = V₁ ++ V₂) lo hi := by
  -- The two pieces of text have no move in common.
  have happart : ∀ {c V c' d W d' q}, R c V c' → S d W d' → q ∈ V → q ∈ W → False := by
    intro c V c' d W d' q hc hd hV hW
    have hbefore := hR.within hc q hV
    have hafter := hS.within hd q hW
    omega
  constructor
  · intro c V c' W d' hc hd
    split at hc
    · rw [if_pos ‹_›] at hd
      exact hS.unique hc hd
    · rw [if_neg ‹_›] at hd
      obtain ⟨c₁, V₁, V₂, hR₁, hS₁, rfl⟩ := hc
      obtain ⟨d₁, W₁, W₂, hR₂, hS₂, rfl⟩ := hd
      obtain ⟨rfl, rfl⟩ := hR.unique hR₁ hR₂
      obtain ⟨rfl, rfl⟩ := hS.unique hS₁ hS₂
      exact ⟨rfl, rfl⟩
  · intro c V c' d W d' q hc hd hV hW
    split at hc
    · split at hd
      · exact hS.merge hc hd hV hW
      · obtain ⟨d₁, W₁, W₂, hR₂, hS₂, rfl⟩ := hd
        rcases List.mem_append.mp hW with hW | hW
        · exact (happart hR₂ hc hW hV).elim
        · exact hS.merge hc hS₂ hV hW
    · obtain ⟨c₁, V₁, V₂, hR₁, hS₁, rfl⟩ := hc
      split at hd
      · rcases List.mem_append.mp hV with hV | hV
        · exact (happart hR₁ hd hV hW).elim
        · exact hS.merge hS₁ hd hV hW
      · obtain ⟨d₁, W₁, W₂, hR₂, hS₂, rfl⟩ := hd
        rcases List.mem_append.mp hV with hV | hV
        · rcases List.mem_append.mp hW with hW | hW
          · obtain rfl := hR.merge hR₁ hR₂ hV hW
            exact (hS.unique hS₁ hS₂).2
          · exact (happart hR₁ hS₂ hV hW).elim
        · rcases List.mem_append.mp hW with hW | hW
          · exact (happart hR₂ hS₁ hW hV).elim
          · exact hS.merge hS₁ hS₂ hV hW
  · intro c V c' hc
    split at hc
    · exact hS.once hc
    · obtain ⟨c₁, V₁, V₂, hR₁, hS₁, rfl⟩ := hc
      refine List.nodup_append.mpr ⟨hR.once hR₁, hS.once hS₁, ?_⟩
      rintro q hV _ hW rfl
      exact happart hR₁ hS₁ hV hW
  · intro c V c' hc q hq
    split at hc
    · have := hS.within hc q hq
      omega
    · obtain ⟨c₁, V₁, V₂, hR₁, hS₁, rfl⟩ := hc
      rcases List.mem_append.mp hq with hq | hq
      · have := hR.within hR₁ q hq
        omega
      · have := hS.within hS₁ q hq
        omega

theorem done (p : Nat) : Tidy (fun c V c' => V = [] ∧ c' = c) p p := by
  constructor
  · rintro c V c' W d' ⟨rfl, rfl⟩ ⟨rfl, rfl⟩
    exact ⟨rfl, rfl⟩
  · rintro c V c' d W d' q ⟨rfl, rfl⟩ _ hV
    simp at hV
  · rintro c V c' ⟨rfl, rfl⟩
    exact List.nodup_nil
  · rintro c V c' ⟨rfl, rfl⟩ q hq
    simp at hq

/-- A move before something tidy.  Nothing before the move matters for what comes after it. -/
theorem move {p : Nat} (h : Tidy R (p + 1) hi) (hp : p < hi) :
    Tidy (fun _ V c' => ∃ W, V = p :: W ∧ R 0 W c') p hi := by
  constructor
  · rintro c V c' W d' ⟨V', rfl, hc⟩ ⟨W', rfl, hd⟩
    obtain ⟨rfl, rfl⟩ := h.unique hc hd
    exact ⟨rfl, rfl⟩
  · rintro c V c' d W d' q ⟨V', rfl, hc⟩ ⟨W', rfl, hd⟩ _ _
    exact (h.unique hc hd).2
  · rintro c V c' ⟨V', rfl, hc⟩
    refine List.nodup_cons.mpr ⟨fun hmem => ?_, h.once hc⟩
    have := h.within hc p hmem
    omega
  · rintro c V c' ⟨V', rfl, hc⟩ q hq
    rcases List.mem_cons.mp hq with rfl | hq
    · omega
    · have := h.within hc q hq
      omega

/-- A byte that only changes the cell before something tidy. -/
theorem comap (h : Tidy R lo hi) (f : UInt8 → UInt8) : Tidy (fun c V c' => R (f c) V c') lo hi :=
  ⟨fun hc hd => h.unique hc hd, fun hc hd => h.merge hc hd, fun hc => h.once hc,
    fun hc => h.within hc⟩

end Tidy

/-- The trails of a tree are tidy. -/
theorem trail_tidy (onNonZero : Bool) (t : Tree) :
    ∀ p, Tidy (t.Trail onNonZero p) p (p + t.flatten.length) := by
  induction t with
  | done => exact Tidy.done
  | byte b rest ih =>
      intro p
      have hrest := ih (p + 1)
      rw [Tree.length_flatten_byte]
      by_cases hmove : b.1 = Instruction.move.glyph
      · have htrail : (Tree.byte b rest).Trail onNonZero p
            = fun _ V c' => ∃ W, V = p :: W ∧ rest.Trail onNonZero (p + 1) 0 W c' := by
          funext c V c'
          rw [Tree.Trail, if_pos hmove]
        rw [htrail]
        exact hrest.move (by omega)
      · have htrail : (Tree.byte b rest).Trail onNonZero p = fun c V c' =>
            rest.Trail onNonZero (p + 1) (if b.1 = Instruction.plus.glyph then c + 1 else c) V c' := by
          funext c V c'
          rw [Tree.Trail, if_neg hmove]
        rw [htrail]
        exact (hrest.widen (Nat.le_succ p) (Nat.le_refl _)).comap _
  | loop body rest ihBody ihRest =>
      intro p
      rw [Tree.length_flatten_loop]
      have hbody := ((ihBody (p + 1)).laps (goesOn onNonZero)).widen (Nat.le_succ p)
        (Nat.le_succ (p + 1 + body.flatten.length))
      have hrest := ihRest (p + 1 + body.flatten.length + 1)
      exact hbody.branch hrest (by omega) (by omega)

/-! ### Every run leaves a trail -/

/-- Whether nothing has been used to the right of the current cell. -/
def Store.Fresh (s : Store) : Prop :=
  s.cells.length = s.mp + 1

/-- A run from `s` to `s'` with the trail `V`. -/
structure Travels (R : UInt8 → List Nat → UInt8 → Prop) (s : Store) (V : List Nat) (s' : Store) :
    Prop where
  trail : R s.cell V s'.cell
  mp : s'.mp = s.mp + V.length
  fresh : s'.Fresh

theorem cell_after_move {s : Store} (h : s.Fresh) :
    (s.after Instruction.move.glyph).cell = 0 ∧ (s.after Instruction.move.glyph).Fresh := by
  have hnew : ¬s.mp + 1 < s.cells.length := by
    rw [Store.Fresh] at h
    omega
  have hafter : s.after Instruction.move.glyph
      = { s with mp := s.mp + 1, cells := s.cells ++ [0] } := by
    rw [Store.after, if_neg (by decide), if_pos rfl, if_neg hnew]
  rw [hafter]
  rw [Store.Fresh] at h
  constructor
  · rw [Store.cell, List.getD_eq_getElem?_getD]
    show ((s.cells ++ [0])[s.mp + 1]?).getD 0 = 0
    rw [← h]
    simp
  · rw [Store.Fresh]
    show (s.cells ++ [0]).length = s.mp + 1 + 1
    rw [List.length_append, h]
    rfl

theorem cell_after {s : Store} (h : s.Fresh) {b : UInt8} (hb : b ≠ Instruction.move.glyph) :
    (s.after b).cell = (if b = Instruction.plus.glyph then s.cell + 1 else s.cell) ∧
      (s.after b).mp = s.mp ∧ (s.after b).Fresh := by
  rw [Store.Fresh] at h
  by_cases hplus : b = Instruction.plus.glyph
  · rw [Store.after, if_pos hplus, if_pos hplus]
    refine ⟨?_, rfl, ?_⟩
    · rw [Store.cell, List.getD_eq_getElem?_getD]
      show ((s.cells.set s.mp (s.cell + 1))[s.mp]?).getD 0 = s.cell + 1
      rw [List.getElem?_set_self (by omega), Option.getD_some]
    · rw [Store.Fresh]
      show (s.cells.set s.mp (s.cell + 1)).length = s.mp + 1
      rw [List.length_set, h]
  · rw [Store.after, if_neg hplus, if_neg hb, if_neg hplus]
    split <;> exact ⟨rfl, rfl, h⟩

theorem travels_of_repeats {again : UInt8 → Bool} {body : Store → Store → Prop}
    {R : UInt8 → List Nat → UInt8 → Prop}
    (hbody : ∀ {s s'}, body s s' → s.Fresh → ∃ V, Travels R s V s') {s s' : Store}
    (h : Repeats again body s s') : s.Fresh → ∃ V, Travels (Laps again R) s V s' := by
  induction h with
  | last run stop =>
      intro hs
      obtain ⟨V, htrail, hmp, hfresh⟩ := hbody run hs
      exact ⟨V, .last htrail stop, hmp, hfresh⟩
  | more run go rest ih =>
      intro hs
      obtain ⟨V, htrail, hmp, hfresh⟩ := hbody run hs
      obtain ⟨W, hlaps, hmp', hfresh'⟩ := ih hfresh
      refine ⟨V ++ W, .more htrail go hlaps, ?_, hfresh'⟩
      rw [hmp', hmp, List.length_append]
      omega

/-- A run of a tree leaves a trail, and the memory pointer moves once for every move on it. -/
theorem travels_of_runs (onNonZero : Bool) (t : Tree) :
    ∀ (p : Nat) {s s' : Store}, t.Runs onNonZero s s' → s.Fresh →
      ∃ V, Travels (t.Trail onNonZero p) s V s' := by
  induction t with
  | done =>
      rintro p s s' rfl hs
      exact ⟨[], ⟨rfl, rfl⟩, rfl, hs⟩
  | byte b rest ih =>
      intro p s s' h hs
      by_cases hmove : b.1 = Instruction.move.glyph
      · have hrun : rest.Runs onNonZero (s.after Instruction.move.glyph) s' := hmove ▸ h
        obtain ⟨hcell, hfresh⟩ := cell_after_move hs
        obtain ⟨V, htrail, hmp, hfresh'⟩ := ih (p + 1) hrun hfresh
        refine ⟨p :: V, ?_, ?_, hfresh'⟩
        · rw [Tree.Trail, if_pos hmove]
          exact ⟨V, rfl, hcell ▸ htrail⟩
        · rw [hmp, List.length_cons]
          show s.mp + 1 + V.length = s.mp + (V.length + 1)
          omega
      · obtain ⟨hcell, hsame, hfresh⟩ := cell_after hs hmove
        obtain ⟨V, htrail, hmp, hfresh'⟩ := ih (p + 1) h hfresh
        refine ⟨V, ?_, by rw [hmp, hsame], hfresh'⟩
        rw [Tree.Trail, if_neg hmove, ← hcell]
        exact htrail
  | loop body rest ihBody ihRest =>
      intro p s s' h hs
      rw [Tree.Runs] at h
      split at h
      · obtain ⟨V, htrail, hmp, hfresh⟩ := ihRest (p + 1 + body.flatten.length + 1) h hs
        refine ⟨V, ?_, hmp, hfresh⟩
        rw [Tree.Trail, if_pos ‹_›]
        exact htrail
      · obtain ⟨s₁, hrepeats, hrest⟩ := h
        obtain ⟨V, hlaps, hmp, hfresh⟩ := travels_of_repeats (ihBody (p + 1)) hrepeats hs
        obtain ⟨W, htrail, hmp', hfresh'⟩ := ihRest (p + 1 + body.flatten.length + 1) hrest hfresh
        refine ⟨V ++ W, ?_, ?_, hfresh'⟩
        · rw [Tree.Trail, if_neg ‹_›]
          exact ⟨s₁.cell, V, W, hlaps, htrail, rfl⟩
        · rw [hmp', hmp, List.length_append]
          omega

/-- **A run that ends travels no further than its text is long.** -/
theorem mp_le_of_runs {onNonZero : Bool} {t : Tree} {s : Store}
    (h : t.Runs onNonZero .blank s) : s.mp ≤ t.flatten.length := by
  obtain ⟨V, htrail, hmp, -⟩ := travels_of_runs onNonZero t 0 h rfl
  have htidy := trail_tidy onNonZero t 0
  have hsub : V ⊆ List.range t.flatten.length := by
    intro q hq
    have := htidy.within htrail q hq
    rw [List.mem_range]
    omega
  have hlength := (List.subperm_of_subset (htidy.once htrail) hsub).length_le
  rw [List.length_range] at hlength
  rw [hmp]
  show 0 + V.length ≤ t.flatten.length
  omega

end TimeTape.Loops
