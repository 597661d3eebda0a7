import Mathlib.Data.List.Sort

/-!
# What a stable sort makes of a reordered list

A stable sort keeps the order of elements its relation has equal. A list in which only
elements that it tells apart change places sorts to the same list.
-/

namespace StableSort

variable {α β : Type*} {apart : α → α → Prop}

/-- Only elements that are apart change places. -/
inductive Reorders (apart : α → α → Prop) : List α → List α → Prop
  | nil : Reorders apart [] []
  | cons (a : α) {l l' : List α} : Reorders apart l l' → Reorders apart (a :: l) (a :: l')
  | swap {a b : α} (h : apart a b) (l : List α) : Reorders apart (a :: b :: l) (b :: a :: l)
  | trans {l l' l'' : List α} : Reorders apart l l' → Reorders apart l' l'' → Reorders apart l l''

namespace Reorders

theorem refl (l : List α) : Reorders apart l l := by
  induction l with
  | nil => exact .nil
  | cons a l ih => exact .cons a ih

theorem mono {apart' : α → α → Prop} (hle : ∀ a b, apart a b → apart' a b) {l l' : List α}
    (h : Reorders apart l l') : Reorders apart' l l' := by
  induction h with
  | nil => exact .nil
  | cons a _ ih => exact .cons a ih
  | swap h l => exact .swap (hle _ _ h) l
  | trans _ _ ih ih' => exact .trans ih ih'

theorem perm {l l' : List α} (h : Reorders apart l l') : l.Perm l' := by
  induction h with
  | nil => exact .nil
  | cons a _ ih => exact .cons a ih
  | swap _ l => exact .swap _ _ l
  | trans _ _ ih ih' => exact .trans ih ih'

theorem append_left (l : List α) {m m' : List α} (h : Reorders apart m m') :
    Reorders apart (l ++ m) (l ++ m') := by
  induction l with
  | nil => exact h
  | cons a l ih => exact .cons a ih

theorem pass {a : α} {l : List α} (h : ∀ b ∈ l, apart a b) (m : List α) :
    Reorders apart (a :: (l ++ m)) (l ++ a :: m) := by
  induction l with
  | nil => exact refl _
  | cons b l ih =>
      obtain ⟨hb, hl⟩ := List.forall_mem_cons.1 h
      exact .trans (.swap hb (l ++ m)) (.cons b (ih hl))

theorem blocks {l l' : List α} (h : ∀ a ∈ l, ∀ b ∈ l', apart a b) (m : List α) :
    Reorders apart (l ++ (l' ++ m)) (l' ++ (l ++ m)) := by
  induction l with
  | nil => exact refl _
  | cons a l ih =>
      obtain ⟨ha, hl⟩ := List.forall_mem_cons.1 h
      exact .trans (.cons a (ih hl)) (pass ha (l ++ m))

theorem flatMap {apart' : β → β → Prop} {f : α → List β}
    (hf : ∀ a b, apart a b → ∀ x ∈ f a, ∀ y ∈ f b, apart' x y) {l l' : List α}
    (h : Reorders apart l l') : Reorders apart' (l.flatMap f) (l'.flatMap f) := by
  induction h with
  | nil => exact .nil
  | cons a _ ih =>
      simp only [List.flatMap_cons]
      exact append_left (f a) ih
  | swap h l =>
      simp only [List.flatMap_cons]
      exact blocks (hf _ _ h) _
  | trans _ _ ih ih' => exact .trans ih ih'

end Reorders

section Sorting

variable (r : α → α → Prop) [DecidableRel r] [IsTrans α r]

theorem orderedInsert_comm {a b : α} (hab : r a b) (hba : ¬ r b a) (l : List α) :
    (l.orderedInsert r b).orderedInsert r a = (l.orderedInsert r a).orderedInsert r b := by
  induction l with
  | nil => simp [hab, hba]
  | cons c l ih =>
      by_cases hbc : r b c
      · have hac : r a c := IsTrans.trans _ _ _ hab hbc
        simp [hab, hba, hbc, hac]
      · by_cases hac : r a c
        · simp [hba, hbc, hac]
        · simp [hbc, hac, ih]

variable [Std.Total r]

theorem Reorders.insertionSort_eq {l l' : List α}
    (h : Reorders (fun a b => ¬ (r a b ∧ r b a)) l l') :
    l.insertionSort r = l'.insertionSort r := by
  induction h with
  | nil => rfl
  | cons a _ ih => rw [List.insertionSort_cons, List.insertionSort_cons, ih]
  | @swap a b h l =>
      simp only [List.insertionSort_cons]
      rcases Std.Total.total (r := r) a b with hab | hba
      · exact orderedInsert_comm r hab (fun hba => h ⟨hab, hba⟩) _
      · exact (orderedInsert_comm r hba (fun hab => h ⟨hab, hba⟩) _).symm
  | trans _ _ ih ih' => exact ih.trans ih'

end Sorting

end StableSort
