import Mathlib.Tactic

/-!
# Streams with bookmarks

Some entries of a stream carry a mark, and a reader that is given a mark reads on
behind the entry that carries it. `before` is what lies in front of a mark, `through`
and `rest` split the stream at the position a reader was given, `none` being the
beginning. When no mark occurs twice, positions taken relative to a rest are
positions of the whole stream.
-/

namespace Bookmark

variable {α χ : Type*} (mark : α → Option χ)

def Occurs (c : χ) (l : List α) : Prop := ∃ a ∈ l, mark a = some c

theorem Occurs.mono {mark : α → Option χ} {c : χ} {l l' : List α} (h : Occurs mark c l)
    (hp : l <+: l') : Occurs mark c l' := by
  obtain ⟨a, ha, hc⟩ := h
  exact ⟨a, hp.subset ha, hc⟩

theorem occurs_snoc {mark : α → Option χ} {c : χ} {l : List α} (a : α) :
    Occurs mark c (l ++ [a]) ↔ Occurs mark c l ∨ mark a = some c := by
  unfold Occurs
  simp

/-- An entry of two streams put together is in the second or in the first. -/
theorem append_split {l l' before after : List α} {a : α} (h : l ++ l' = before ++ a :: after) :
    (∃ tail, before = l ++ tail ∧ l' = tail ++ a :: after) ∨ ∃ tail, l = before ++ a :: tail := by
  rcases List.append_eq_append_iff.1 h with ⟨tail, hbefore, htail⟩ | ⟨tail, hl, htail⟩
  · exact Or.inl ⟨tail, hbefore, htail⟩
  · cases tail with
    | nil => exact Or.inl ⟨[], by simpa using hl.symm, htail.symm⟩
    | cons b tail =>
        obtain ⟨rfl, -⟩ := List.cons.inj htail
        exact Or.inr ⟨tail, hl⟩

variable [DecidableEq χ]

def before (c : χ) (l : List α) : List α := l.takeWhile (fun a => mark a ≠ some c)

def through : Option χ → List α → List α
  | none, _ => []
  | some c, l => l.take ((before mark c l).length + 1)

def rest : Option χ → List α → List α
  | none, l => l
  | some c, l => l.drop ((before mark c l).length + 1)

variable {mark} {c : χ} {l l' : List α}

theorem before_initial : before mark c l <+: l := List.takeWhile_prefix _

theorem through_append_rest (p : Option χ) (l : List α) :
    through mark p l ++ rest mark p l = l := by
  cases p with
  | none => rfl
  | some c => exact List.take_append_drop _ l

theorem before_cons (a : α) (l : List α) :
    before mark c (a :: l) = if mark a = some c then [] else a :: before mark c l := by
  rw [before, List.takeWhile_cons]
  by_cases ha : mark a = some c <;> simp [ha, before]

theorem Occurs.split (h : Occurs mark c l) :
    ∃ a t, mark a = some c ∧ l = before mark c l ++ a :: t := by
  induction l with
  | nil =>
      obtain ⟨a, ha, _⟩ := h
      cases ha
  | cons b l ih =>
      rw [before_cons]
      by_cases hb : mark b = some c
      · exact ⟨b, l, hb, by rw [if_pos hb]; rfl⟩
      · have hl : Occurs mark c l := by
          obtain ⟨a, ha, hc⟩ := h
          rcases List.mem_cons.1 ha with rfl | ha
          · exact absurd hc hb
          · exact ⟨a, ha, hc⟩
        obtain ⟨a, t, ha, ht⟩ := ih hl
        exact ⟨a, t, ha, by rw [if_neg hb, List.cons_append, ← ht]⟩

theorem before_append_of_not_occurs (h : ¬ Occurs mark c l) :
    before mark c (l ++ l') = l ++ before mark c l' := by
  induction l with
  | nil => rfl
  | cons b l ih =>
      have hb : mark b ≠ some c := fun hc => h ⟨b, List.mem_cons_self, hc⟩
      have hl : ¬ Occurs mark c l := fun ⟨a, ha, hc⟩ => h ⟨a, List.mem_cons_of_mem _ ha, hc⟩
      rw [List.cons_append, before_cons, if_neg hb, ih hl, List.cons_append]

theorem Occurs.before_append (h : Occurs mark c l) :
    before mark c (l ++ l') = before mark c l := by
  induction l with
  | nil =>
      obtain ⟨a, ha, _⟩ := h
      cases ha
  | cons b l ih =>
      rw [List.cons_append, before_cons, before_cons]
      by_cases hb : mark b = some c
      · rw [if_pos hb, if_pos hb]
      · have hl : Occurs mark c l := by
          obtain ⟨a, ha, hc⟩ := h
          rcases List.mem_cons.1 ha with rfl | ha
          · exact absurd hc hb
          · exact ⟨a, ha, hc⟩
        rw [if_neg hb, if_neg hb, ih hl]

theorem Occurs.before_eq (h : Occurs mark c l) (hp : l <+: l') :
    before mark c l' = before mark c l := by
  obtain ⟨t, rfl⟩ := hp
  exact h.before_append

theorem Occurs.through_eq (h : Occurs mark c l) :
    ∃ a, mark a = some c ∧ through mark (some c) l = before mark c l ++ [a] := by
  obtain ⟨a, t, ha, ht⟩ := h.split
  refine ⟨a, ha, ?_⟩
  have hl : l.take ((before mark c l).length + 1) =
      (before mark c l ++ a :: t).take ((before mark c l).length + 1) := by rw [← ht]
  rw [through, hl, List.take_append, List.take_of_length_le (Nat.le_succ _),
    Nat.add_sub_cancel_left]
  rfl

theorem Occurs.rest_append (h : Occurs mark c l) :
    rest mark (some c) (l ++ l') = rest mark (some c) l ++ l' := by
  obtain ⟨a, t, -, ht⟩ := h.split
  have hlen : (before mark c l).length + 1 ≤ l.length := by
    conv_rhs => rw [ht]
    rw [List.length_append, List.length_cons]
    omega
  simp only [rest]
  rw [h.before_append, List.drop_append_of_le_length hlen]

/-- A reader that has not met its mark reads nothing, and the mark itself is not read. -/
theorem rest_snoc_of_not_occurs (h : ¬ Occurs mark c l) (a : α) :
    rest mark (some c) (l ++ [a]) = [] := by
  simp only [rest]
  rw [before_append_of_not_occurs h, List.drop_eq_nil_iff, List.length_append, List.length_append,
    List.length_singleton]
  omega

theorem rest_of_not_occurs (h : ¬ Occurs mark c l) : rest mark (some c) l = [] := by
  have hbefore : before mark c (l ++ []) = l ++ before mark c [] := before_append_of_not_occurs h
  rw [List.append_nil] at hbefore
  simp only [rest]
  rw [hbefore, List.drop_eq_nil_iff, List.length_append]
  omega

/-- A reader that resumed at `p` and met the mark `c` stands, in the whole stream,
behind what it had read before and what it has read since. -/
theorem through_of_resumed (hnd : (l.filterMap mark).Nodup) {p : Option χ} {h : List α}
    (hp : h <+: rest mark p l) (hc : Occurs mark c h) :
    through mark (some c) l = through mark p l ++ through mark (some c) h := by
  have hsplit := @through_append_rest _ _ mark _ p l
  have hrest : Occurs mark c (rest mark p l) := hc.mono hp
  have hnot : ¬ Occurs mark c (through mark p l) := by
    rintro ⟨a, ha, hac⟩
    rw [← hsplit, List.filterMap_append] at hnd
    obtain ⟨b, hb, hbc⟩ := hrest
    exact (List.nodup_append.1 hnd).2.2 c (List.mem_filterMap.2 ⟨a, ha, hac⟩) c
      (List.mem_filterMap.2 ⟨b, hb, hbc⟩) rfl
  have hbefore : before mark c l = through mark p l ++ before mark c h := by
    conv_lhs => rw [← hsplit]
    rw [before_append_of_not_occurs hnot, hc.before_eq hp]
  obtain ⟨a, t, ha, ht⟩ := hc.split
  have hlen : (before mark c h).length + 1 ≤ h.length := by
    conv_rhs => rw [ht]
    rw [List.length_append, List.length_cons]
    omega
  obtain ⟨s, hs⟩ := hp
  have htake : (rest mark p l).take ((before mark c h).length + 1) =
      h.take ((before mark c h).length + 1) := by
    rw [← hs, List.take_append_of_le_length hlen]
  have hl : ∀ n, l.take n = (through mark p l ++ rest mark p l).take n := fun n => by rw [hsplit]
  change l.take ((before mark c l).length + 1) = _
  rw [hbefore, List.length_append, add_assoc, hl, List.take_length_add_append, htake]
  rfl

end Bookmark
