import Mathlib.Data.List.Basic

/-!
# Codes that say where they end

A code is self-delimiting when what follows a codeword can be split off it. Such a code stays
one under a fixed tail, and a concatenation of its codewords can be read back when none of
them is empty. A word over the letters other than a stop, closed by the stop, is
one; so is a body of any letters behind a header that says how many there are.
-/

namespace Codeword

variable {α β σ : Type*}

def SelfDelimiting (code : α → List σ) : Prop :=
  ∀ a b r s, code a ++ r = code b ++ s → a = b ∧ r = s

theorem SelfDelimiting.comp {code : α → List σ} (h : SelfDelimiting code) {f : β → α}
    (hf : Function.Injective f) : SelfDelimiting fun b => code (f b) := by
  intro a b r s hab
  obtain ⟨heq, hrest⟩ := h (f a) (f b) r s hab
  exact ⟨hf heq, hrest⟩

theorem SelfDelimiting.append_tail {code : α → List σ} (h : SelfDelimiting code) (tail : List σ) :
    SelfDelimiting fun a => code a ++ tail := by
  intro a b r s hab
  simp only [List.append_assoc] at hab
  obtain ⟨heq, hrest⟩ := h a b _ _ hab
  exact ⟨heq, List.append_cancel_left hrest⟩

/-- A word without the stop ends at the first one. -/
theorem append_stop_inj {stop : σ} {u v r s : List σ} (hu : stop ∉ u) (hv : stop ∉ v)
    (h : u ++ stop :: r = v ++ stop :: s) : u = v ∧ r = s := by
  induction u generalizing v with
  | nil =>
      cases v with
      | nil => exact ⟨rfl, (List.cons.inj h).2⟩
      | cons b v => exact absurd ((List.cons.inj h).1 ▸ List.mem_cons_self) hv
  | cons a u ih =>
      cases v with
      | nil => exact absurd ((List.cons.inj h).1 ▸ List.mem_cons_self) hu
      | cons b v =>
          obtain ⟨rfl, htail⟩ := List.cons.inj h
          obtain ⟨rfl, rfl⟩ := ih (fun hmem => hu (List.mem_cons_of_mem _ hmem))
            (fun hmem => hv (List.mem_cons_of_mem _ hmem)) htail
          exact ⟨rfl, rfl⟩

theorem of_stop {code : α → List σ} (hinj : Function.Injective code) {stop : σ}
    (hstop : ∀ a, stop ∉ code a) : SelfDelimiting fun a => code a ++ [stop] := by
  intro a b r s h
  simp only [List.append_assoc, List.singleton_append] at h
  obtain ⟨hword, hrest⟩ := append_stop_inj (hstop a) (hstop b) h
  exact ⟨hinj hword, hrest⟩

/-- The length is read first, and then as many letters as it says, whatever they are. -/
theorem of_length {header : ℕ → List σ} (h : SelfDelimiting header) :
    SelfDelimiting fun body : List σ => header body.length ++ body := by
  intro a b r s hab
  simp only [List.append_assoc] at hab
  obtain ⟨hlength, hbody⟩ := h _ _ _ _ hab
  exact List.append_inj hbody hlength

theorem flatMap_injective {code : α → List σ} (h : SelfDelimiting code) (hne : ∀ a, code a ≠ []) :
    Function.Injective (List.flatMap code) := by
  intro l
  induction l with
  | nil =>
      intro l' heq
      cases l' with
      | nil => rfl
      | cons b l' =>
          rw [List.flatMap_cons] at heq
          exact absurd (List.append_eq_nil_iff.1 heq.symm).1 (hne b)
  | cons a l ih =>
      intro l' heq
      cases l' with
      | nil =>
          rw [List.flatMap_cons] at heq
          exact absurd (List.append_eq_nil_iff.1 heq).1 (hne a)
      | cons b l' =>
          rw [List.flatMap_cons, List.flatMap_cons] at heq
          obtain ⟨rfl, hrest⟩ := h a b _ _ heq
          rw [ih hrest]

end Codeword
