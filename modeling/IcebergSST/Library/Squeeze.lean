import Mathlib.Data.List.DropRight
import Mathlib.Tactic.Common

/-!
# Text up to blanks

Runs of blanks count as one separator, and blanks at the ends as nothing. Two texts that
squeeze to the same text differ in their blanks only.
-/

namespace Squeeze

variable {α : Type*} (blank : α → Bool) (sep : α)

/-- A separator before what follows a blank, if anything does. -/
def spaced : Bool → List α → List α
  | true, d :: s => sep :: d :: s
  | _, s => s

def squeeze : List α → List α
  | [] => []
  | c :: s =>
      if blank c then squeeze s else c :: spaced sep (s.head?.any blank) (squeeze s)

/-- Two squeezed texts with a blank between them. -/
def glue (a b : List α) : List α := if a = [] then b else a ++ spaced sep true b

/-- The pieces stand in the text one after the other. -/
inductive InOrder : List (List α) → List α → Prop
  | nil (s : List α) : InOrder [] s
  | cons (gap p : List α) {ps : List (List α)} {s : List α} : InOrder ps s →
      InOrder (p :: ps) (gap ++ p ++ s)

variable {blank sep} {c : α} {a b s u v w : List α}

@[simp] theorem spaced_false : spaced sep false s = s := by cases s <;> rfl

@[simp] theorem spaced_nil {after : Bool} : spaced sep after [] = [] := by cases after <;> rfl

theorem spaced_append {after : Bool} (hs : s ≠ []) :
    spaced sep after (s ++ v) = spaced sep after s ++ v := by
  obtain ⟨d, s, rfl⟩ := List.exists_cons_of_ne_nil hs
  cases after <;> rfl

theorem exists_spaced (sep : α) (after : Bool) (s : List α) :
    ∃ gap, spaced sep after s = gap ++ s := by
  cases after with
  | false => exact ⟨[], spaced_false⟩
  | true =>
      cases s with
      | nil => exact ⟨[], rfl⟩
      | cons d s => exact ⟨[sep], rfl⟩

@[simp] theorem glue_nil_left : glue sep [] b = b := if_pos rfl

@[simp] theorem glue_nil_right : glue sep a [] = a := by
  unfold glue
  split_ifs with h
  · exact h.symm
  · simp

theorem squeeze_cons_blank (h : blank c) : squeeze blank sep (c :: s) = squeeze blank sep s := by
  simp [squeeze, h]

theorem squeeze_cons_of_not_blank (h : ¬ blank c) : squeeze blank sep (c :: s) =
    c :: spaced sep (s.head?.any blank) (squeeze blank sep s) := if_neg h

theorem squeeze_blanks_append (h : ∀ c ∈ w, blank c) :
    squeeze blank sep (w ++ v) = squeeze blank sep v := by
  induction w with
  | nil => rfl
  | cons c w ih =>
      obtain ⟨hc, hw⟩ := List.forall_mem_cons.1 h
      rw [List.cons_append, squeeze_cons_blank hc, ih hw]

theorem squeeze_eq_nil : squeeze blank sep s = [] ↔ ∀ c ∈ s, blank c := by
  induction s with
  | nil => simp [squeeze]
  | cons c s ih =>
      by_cases hc : blank c
      · rw [squeeze_cons_blank hc, ih, List.forall_mem_cons]
        exact ⟨fun h => ⟨hc, h⟩, And.right⟩
      · rw [squeeze_cons_of_not_blank hc]
        exact iff_of_false (List.cons_ne_nil _ _) fun h => hc (h c List.mem_cons_self)

theorem squeeze_append_blank (h : blank c) : squeeze blank sep (u ++ c :: v) =
    glue sep (squeeze blank sep u) (squeeze blank sep v) := by
  induction u with
  | nil => simp [squeeze, h]
  | cons d u ih =>
      by_cases hd : blank d
      · rw [List.cons_append, squeeze_cons_blank hd, squeeze_cons_blank hd, ih]
      · rw [List.cons_append, squeeze_cons_of_not_blank hd, squeeze_cons_of_not_blank hd, ih]
        have hblank : ((u ++ c :: v).head?.any blank) = true ∨ squeeze blank sep u ≠ [] := by
          cases u with
          | nil => exact Or.inl h
          | cons e u =>
              by_cases he : blank e
              · exact Or.inl he
              · exact Or.inr fun hnil => he (squeeze_eq_nil.1 hnil e List.mem_cons_self)
        by_cases hu : squeeze blank sep u = []
        · rw [hu, glue_nil_left, spaced_nil, hblank.resolve_right (not_not.2 hu)]
          rfl
        · have hhead : (u ++ c :: v).head? = u.head? := by
            cases u with
            | nil => exact absurd rfl hu
            | cons e u => rfl
          rw [hhead, glue, if_neg hu, spaced_append hu, glue, if_neg (List.cons_ne_nil _ _)]
          rfl

/-- It does not matter which blanks a nonempty run of them is made of. -/
theorem squeeze_append_blanks (hw : ∀ c ∈ w, blank c) (hne : w ≠ []) :
    squeeze blank sep (u ++ (w ++ v)) = glue sep (squeeze blank sep u) (squeeze blank sep v) := by
  obtain ⟨c, w, rfl⟩ := List.exists_cons_of_ne_nil hne
  obtain ⟨hc, hw⟩ := List.forall_mem_cons.1 hw
  rw [List.cons_append, squeeze_append_blank hc, squeeze_blanks_append hw]

theorem exists_squeeze_append (blank : α → Bool) (sep : α) (u v : List α) :
    ∃ gap, squeeze blank sep (u ++ v) =
      squeeze blank sep u ++ gap ++ squeeze blank sep v := by
  induction u with
  | nil => exact ⟨[], rfl⟩
  | cons c u ih =>
      obtain ⟨gap, hgap⟩ := ih
      by_cases hc : blank c
      · exact ⟨gap, by rw [List.cons_append, squeeze_cons_blank hc, squeeze_cons_blank hc, hgap]⟩
      · rw [List.cons_append, squeeze_cons_of_not_blank hc, squeeze_cons_of_not_blank hc, hgap]
        by_cases hu : squeeze blank sep u = []
        · obtain ⟨gap', hgap'⟩ := exists_spaced sep ((u ++ v).head?.any blank)
            (gap ++ squeeze blank sep v)
          refine ⟨gap' ++ gap, ?_⟩
          rw [hu, List.nil_append, hgap', spaced_nil]
          simp only [List.cons_append, List.nil_append, List.append_assoc]
        · have hhead : (u ++ v).head? = u.head? := by
            cases u with
            | nil => exact absurd rfl hu
            | cons e u => rfl
          exact ⟨gap, by rw [hhead, List.append_assoc, spaced_append hu]; simp⟩

/-- Whatever stands around a text. -/
theorem squeeze_infix (u s v : List α) :
    squeeze blank sep s <:+: squeeze blank sep (u ++ s ++ v) := by
  obtain ⟨gap, hgap⟩ := exists_squeeze_append blank sep u (s ++ v)
  obtain ⟨gap', hgap'⟩ := exists_squeeze_append blank sep s v
  refine ⟨squeeze blank sep u ++ gap, gap' ++ squeeze blank sep v, ?_⟩
  rw [List.append_assoc u, hgap, hgap']
  simp only [List.append_assoc]

theorem mem_squeeze (hsep : blank sep) (hc : ¬ blank c) : c ∈ squeeze blank sep s ↔ c ∈ s := by
  have hne : c ≠ sep := fun h => hc (h ▸ hsep)
  induction s with
  | nil => exact Iff.rfl
  | cons d s ih =>
      by_cases hd : blank d
      · have hcd : c ≠ d := fun h => hc (h ▸ hd)
        rw [squeeze_cons_blank hd, List.mem_cons, or_iff_right hcd]
        exact ih
      · have hspaced (after : Bool) (u : List α) : c ∈ spaced sep after u ↔ c ∈ u := by
          cases after with
          | false => rw [spaced_false]
          | true =>
              cases u with
              | nil => rfl
              | cons e u => rw [spaced, List.mem_cons, or_iff_right hne]
        rw [squeeze_cons_of_not_blank hd, List.mem_cons, List.mem_cons, hspaced]
        exact or_congr_right ih

theorem InOrder.prepend {ps : List (List α)} (h : InOrder ps s) (u : List α) :
    InOrder ps (u ++ s) := by
  cases h with
  | nil => exact .nil _
  | cons gap p h =>
      have hlonger := InOrder.cons (u ++ gap) p h
      simpa only [List.append_assoc] using hlonger

theorem InOrder.infix_of_mem {ps : List (List α)} (h : InOrder ps s) {p : List α} (hp : p ∈ ps) :
    p <:+: s := by
  induction h with
  | nil s => exact absurd hp List.not_mem_nil
  | @cons gap q ps s _ ih =>
      rcases List.mem_cons.1 hp with rfl | hp
      · exact ⟨gap, s, rfl⟩
      · exact (ih hp).trans (List.suffix_append _ _).isInfix

/-- What stands in a text in order still does when both are squeezed. -/
theorem InOrder.squeezed {ps : List (List α)} (h : InOrder ps s) :
    InOrder (ps.map (squeeze blank sep)) (squeeze blank sep s) := by
  induction h with
  | nil s => exact .nil _
  | @cons gap p ps s _ ih =>
      obtain ⟨g, hg⟩ := exists_squeeze_append blank sep gap (p ++ s)
      obtain ⟨g', hg'⟩ := exists_squeeze_append blank sep p s
      have hcons := InOrder.cons (squeeze blank sep gap ++ g) (squeeze blank sep p) (ih.prepend g')
      rw [List.append_assoc gap, hg, hg']
      simpa only [List.append_assoc, List.map_cons] using hcons

theorem squeeze_dropWhile (s : List α) :
    squeeze blank sep (s.dropWhile blank) = squeeze blank sep s := by
  induction s with
  | nil => rfl
  | cons c s ih =>
      by_cases hc : blank c
      · rw [List.dropWhile_cons_of_pos hc, squeeze_cons_blank hc, ih]
      · rw [List.dropWhile_cons_of_neg hc]

theorem squeeze_rdropWhile (s : List α) :
    squeeze blank sep (s.rdropWhile blank) = squeeze blank sep s := by
  induction s using List.reverseRecOn with
  | nil => rfl
  | append_singleton s c ih =>
      by_cases hc : blank c
      · rw [List.rdropWhile_concat_pos _ _ _ hc, ih, squeeze_append_blank hc]
        exact glue_nil_right.symm
      · rw [List.rdropWhile_concat_neg _ _ _ hc]

/-- Two or more of a run become one. -/
def shortened (one : α) (run : List α) : List α := if 2 ≤ run.length then [one] else run

/-- Runs of two or more of some blanks become one; `run` is the run under way, last first. -/
def collapseRuns (inRun : α → Bool) (one : α) : List α → List α → List α
  | run, [] => shortened one run
  | run, c :: s =>
      if inRun c then collapseRuns inRun one (c :: run) s
      else shortened one run ++ c :: collapseRuns inRun one [] s

theorem squeeze_shortened (sep : α) {one : α} {run : List α} (hone : blank one)
    (hrun : ∀ c ∈ run, blank c) (u v : List α) : squeeze blank sep (u ++ (shortened one run ++ v)) =
      squeeze blank sep (u ++ (run.reverse ++ v)) := by
  unfold shortened
  split_ifs with hlong
  · have hne : run.reverse ≠ [] := by
      rw [ne_eq, List.reverse_eq_nil_iff]
      rintro rfl
      simp at hlong
    rw [squeeze_append_blanks (List.forall_mem_singleton.2 hone) (List.cons_ne_nil _ _),
      squeeze_append_blanks (fun c hc => hrun c (List.mem_reverse.1 hc)) hne]
  · rcases run with _ | ⟨c, _ | ⟨d, run⟩⟩
    · rfl
    · rfl
    · simp at hlong

/-- In whatever stands before it, a run is as good as what it becomes. -/
theorem squeeze_collapseRuns {inRun : α → Bool} {one : α} (hblank : ∀ c, inRun c → blank c)
    (hone : blank one) (u run s : List α) (hrun : ∀ c ∈ run, blank c) :
    squeeze blank sep (u ++ collapseRuns inRun one run s) =
      squeeze blank sep (u ++ (run.reverse ++ s)) := by
  induction s generalizing u run with
  | nil =>
      have h := squeeze_shortened sep hone hrun u []
      simpa only [List.append_nil, collapseRuns] using h
  | cons c s ih =>
      rw [collapseRuns]
      split_ifs with hc
      · rw [ih u (c :: run) (List.forall_mem_cons.2 ⟨hblank c hc, hrun⟩), List.reverse_cons,
          List.append_assoc, List.singleton_append]
      · have hrest := ih (u ++ shortened one run ++ [c]) [] (List.forall_mem_nil _)
        have hflush := squeeze_shortened sep hone hrun u (c :: s)
        simp only [List.append_assoc, List.singleton_append, List.reverse_nil,
          List.nil_append] at hrest hflush
        rw [hrest, hflush]

theorem squeeze_intercalate_cons (h : blank c) (l : List α) (ls : List (List α)) :
    squeeze blank sep ([c].intercalate (l :: ls)) =
      glue sep (squeeze blank sep l) (squeeze blank sep ([c].intercalate ls)) := by
  cases ls with
  | nil => simp [squeeze]
  | cons l' ls =>
      rw [List.intercalate_cons_of_ne_nil (List.cons_ne_nil _ _), List.append_assoc,
        List.singleton_append, squeeze_append_blank h]

end Squeeze
