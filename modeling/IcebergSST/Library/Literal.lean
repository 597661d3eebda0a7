import Mathlib.Tactic

/-!
# Looking for a literal in a list, and replacing it

`At xs s i` says that `s` stands in `xs` from position `i` on, `occurrences` are the
positions between two bounds where it does, and `replace` puts a text in the place of the
leftmost copy, then of the next one behind it, and so on. The cells a copy is looked for in
may carry more than the symbol they show: `key` reads the symbol off, and `Rewrites` is
what a replacement does to the cells.
-/

namespace Literal

section Search

variable {α : Type*}

def slice (xs : List α) (start stop : ℕ) : List α := (xs.drop start).take (stop - start)

/-- `s` stands in `xs` from position `i` on. -/
def At (xs s : List α) (i : ℕ) : Prop := s <+: xs.drop i

variable {xs s : List α} {start stop i : ℕ}

theorem length_slice (h : stop ≤ xs.length) : (slice xs start stop).length = stop - start := by
  rw [slice, List.length_take, List.length_drop]
  omega

theorem at_iff_slice_eq : At xs s i ↔ slice xs i (i + s.length) = s := by
  rw [At, slice, Nat.add_sub_cancel_left, List.prefix_iff_eq_take]
  exact eq_comm

theorem At.le_length (h : At xs s i) (hs : 0 < s.length) : i + s.length ≤ xs.length := by
  have hlen := h.length_le
  rw [List.length_drop] at hlen
  omega

theorem At.slice_eq (h : At xs s i) : slice xs i (i + s.length) = s := at_iff_slice_eq.1 h

theorem getElem?_slice {k : ℕ} (hk : k < stop - start) :
    (slice xs start stop)[k]? = xs[start + k]? := by
  rw [slice, List.getElem?_take_of_lt hk, List.getElem?_drop]

theorem slice_slice {a b : ℕ} (hb : start + b ≤ stop) :
    slice (slice xs start stop) a b = slice xs (start + a) (start + b) := by
  rw [slice, slice, slice, List.drop_take, List.take_take, List.drop_drop]
  congr 1
  omega

theorem slice_append {mid : ℕ} (h : start ≤ mid) (h' : mid ≤ stop) :
    slice xs start mid ++ slice xs mid stop = slice xs start stop := by
  rw [slice, slice, slice, show stop - start = (mid - start) + (stop - mid) by omega,
    List.take_add, List.drop_drop, Nat.add_sub_cancel' h]

variable [DecidableEq α]

instance : Decidable (At xs s i) := inferInstanceAs (Decidable (_ <+: _))

/-- The positions, in order, of the copies that lie between `start` and `stop`. -/
def occurrences (xs s : List α) (start stop : ℕ) : List ℕ :=
  (List.range' start (stop + 1 - start)).filter fun i => i + s.length ≤ stop ∧ At xs s i

def find (xs s : List α) (start stop : ℕ) : Option ℕ := (occurrences xs s start stop).head?

theorem mem_occurrences :
    i ∈ occurrences xs s start stop ↔ start ≤ i ∧ i + s.length ≤ stop ∧ At xs s i := by
  simp only [occurrences, List.mem_filter, List.mem_range'_1, decide_eq_true_eq]
  constructor
  · rintro ⟨⟨h, _⟩, h'⟩
    exact ⟨h, h'⟩
  · rintro ⟨h, h', hat⟩
    exact ⟨⟨h, by omega⟩, h', hat⟩

theorem find_mem (h : find xs s start stop = some i) : i ∈ occurrences xs s start stop :=
  List.mem_of_mem_head? (by rw [show (occurrences xs s start stop).head? = some i from h]; rfl)

theorem find_eq_none :
    find xs s start stop = none ↔ ∀ i, start ≤ i → i + s.length ≤ stop → ¬ At xs s i := by
  rw [find, List.head?_eq_none_iff, List.eq_nil_iff_forall_not_mem]
  simp only [mem_occurrences, not_and]

end Search

section Replace

variable {α χ : Type*} (key : α → χ) (old : List χ) (new : List α)

/-- One cell is kept where no copy begins, one copy is replaced where one does. -/
inductive Rewrites : List α → List α → Prop
  | nil : Rewrites [] []
  | keep {c cells out} (hold : ¬ old <+: (c :: cells).map key) (rest : Rewrites cells out) :
      Rewrites (c :: cells) (c :: out)
  | hit {copy cells out} (hcopy : copy.map key = old) (rest : Rewrites cells out) :
      Rewrites (copy ++ cells) (new ++ out)

/-- The copies that a replacement takes. -/
inductive Hit : List α → List α → Prop
  | here {copy cells} (hcopy : copy.map key = old) : Hit (copy ++ cells) copy
  | keep {c cells copy} (hold : ¬ old <+: (c :: cells).map key) (rest : Hit cells copy) :
      Hit (c :: cells) copy
  | next {copy cells copy'} (hcopy : copy.map key = old) (rest : Hit cells copy') :
      Hit (copy ++ cells) copy'

/-- The first argument counts the cells of a copy that are still to be dropped. -/
def replaceFrom [DecidableEq χ] : ℕ → List α → List α
  | _, [] => []
  | skip + 1, _ :: cells => replaceFrom skip cells
  | 0, c :: cells =>
    if old <+: (c :: cells).map key then new ++ replaceFrom (old.length - 1) cells
    else c :: replaceFrom 0 cells

def replace [DecidableEq χ] (cells : List α) : List α := replaceFrom key old new 0 cells

variable {key old new}

section Scan

variable [DecidableEq χ]

theorem replaceFrom_eq_drop (skip : ℕ) (cells : List α) :
    replaceFrom key old new skip cells = replaceFrom key old new 0 (cells.drop skip) := by
  induction cells generalizing skip with
  | nil => cases skip <;> rfl
  | cons c cells ih =>
      cases skip with
      | zero => rfl
      | succ skip => exact ih skip

theorem rewrites_replace (hold : old ≠ []) (cells : List α) :
    Rewrites key old new cells (replace key old new cells) := by
  induction hn : cells.length using Nat.strong_induction_on generalizing cells with
  | h n ih =>
      cases cells with
      | nil => exact .nil
      | cons c cells =>
          rw [replace, replaceFrom]
          by_cases hp : old <+: (c :: cells).map key
          · -- the copy is cut off as a whole, and the scan goes on behind it
            have hlen : 0 < old.length := List.length_pos_iff.2 hold
            have hsplit : c :: cells =
                (c :: cells).take old.length ++ cells.drop (old.length - 1) := by
              conv_lhs => rw [← List.take_append_drop old.length (c :: cells)]
              rw [← Nat.succ_pred_eq_of_pos hlen]
              rfl
            rw [if_pos hp, replaceFrom_eq_drop]
            conv => arg 4; rw [hsplit]
            refine .hit ?_ (ih _ ?_ _ rfl)
            · rw [List.map_take]
              exact (List.prefix_iff_eq_take.1 hp).symm
            · rw [List.length_drop, ← hn, List.length_cons]
              omega
          · rw [if_neg hp]
            exact .keep hp (ih _ (by rw [← hn]; exact Nat.lt_succ_self _) _ rfl)

/-- Replacing does not look at more of a cell than its key. -/
theorem map_replaceFrom {β : Type*} (f : α → β) {key' : β → χ} (hkey : ∀ a, key' (f a) = key a)
    (skip : ℕ) (cells : List α) :
    (replaceFrom key old new skip cells).map f =
      replaceFrom key' old (new.map f) skip (cells.map f) := by
  induction cells generalizing skip with
  | nil => cases skip <;> rfl
  | cons c cells ih =>
      cases skip with
      | succ skip => exact ih skip
      | zero =>
          have hmap : ((c :: cells).map f).map key' = (c :: cells).map key := by
            rw [List.map_map]
            exact List.map_congr_left fun a _ => hkey a
          rw [List.map_cons] at hmap
          simp only [replaceFrom, List.map_cons, hmap]
          split
          · rw [List.map_append, ih]
          · rw [List.map_cons, ih]

end Scan

theorem infix_of_append_of_head_not_mem {c : α} {seg pre l : List α} (h : c :: seg <:+: pre ++ l)
    (hc : c ∉ pre) : c :: seg <:+: l := by
  induction pre with
  | nil => exact h
  | cons b pre ih =>
      rw [List.cons_append, List.infix_cons_iff] at h
      rcases h with h | h
      · obtain rfl := (List.cons_prefix_cons.1 h).1
        exact absurd List.mem_cons_self hc
      · exact ih h fun hm => hc (List.mem_cons_of_mem b hm)

variable {cells out seg : List α}

theorem Rewrites.mem (h : Rewrites key old new cells out) {c : α} (hc : c ∈ out) :
    c ∈ cells ∨ c ∈ new := by
  induction h with
  | nil => cases hc
  | keep _ _ ih =>
      rcases List.mem_cons.1 hc with rfl | hc
      · exact Or.inl List.mem_cons_self
      · exact (ih hc).imp_left (List.mem_cons_of_mem _)
  | hit _ _ ih =>
      rcases List.mem_append.1 hc with hc | hc
      · exact Or.inr hc
      · exact (ih hc).imp_left (List.mem_append_right _)

theorem Rewrites.pairwise {kept : α → Prop} (hnew : ∀ c ∈ new, ¬ kept c)
    (h : Rewrites key old new cells out) (huniq : cells.Pairwise fun a b => kept a → a ≠ b) :
    out.Pairwise fun a b => kept a → a ≠ b := by
  induction h with
  | nil => exact huniq
  | keep _ rest ih =>
      obtain ⟨hc, hcells⟩ := List.pairwise_cons.1 huniq
      refine List.pairwise_cons.2 ⟨fun b hb hk => ?_, ih hcells⟩
      rcases rest.mem hb with hb | hb
      · exact hc b hb hk
      · rintro rfl
        exact hnew _ hb hk
  | hit _ _ ih =>
      refine List.pairwise_append.2 ⟨?_, ih (List.pairwise_append.1 huniq).2.1, ?_⟩
      · exact List.pairwise_of_forall_mem_list fun a ha _ _ hk => absurd hk (hnew a ha)
      · exact fun a ha _ _ hk => absurd hk (hnew a ha)

/-! A stretch of the result that holds no whole replacement, and neither begins nor ends
within one, stood there before, and is no copy. -/

section Untouched

variable {P : α → Prop} (hword : ∃ c ∈ new, ¬ P c)
include hword

theorem Rewrites.prefix_untouched (h : Rewrites key old new cells out) (hp : seg <+: out)
    (hP : ∀ c ∈ seg, P c) (hlast : ∀ c ∈ seg.getLast?, c ∉ new) : seg <+: cells := by
  induction h generalizing seg with
  | nil => exact hp
  | keep _ _ ih =>
      cases seg with
      | nil => exact List.nil_prefix
      | cons c seg =>
          obtain ⟨rfl, htail⟩ := List.cons_prefix_cons.1 hp
          refine List.cons_prefix_cons.2
            ⟨rfl, ih htail (fun d hd => hP d (List.mem_cons_of_mem _ hd)) ?_⟩
          intro d hd
          refine hlast d ?_
          rw [List.getLast?_cons, Option.mem_def.1 hd]
          rfl
  | hit _ _ _ =>
      rcases List.prefix_or_prefix_of_prefix hp (List.prefix_append new _) with hseg | hnew
      · cases hl : seg.getLast? with
        | none =>
            rw [List.getLast?_eq_none_iff.1 hl]
            exact List.nil_prefix
        | some c => exact absurd (hseg.subset (List.mem_of_getLast? hl)) (hlast c hl)
      · obtain ⟨c, hc, hnot⟩ := hword
        exact absurd (hP c (hnew.subset hc)) hnot

theorem Rewrites.infix_untouched {c : α} (h : Rewrites key old new cells out)
    (hp : c :: seg <:+: out) (hP : ∀ d ∈ c :: seg, P d) (hhead : c ∉ new)
    (hlast : ∀ d ∈ (c :: seg).getLast?, d ∉ new) :
    c :: seg <:+: cells ∧ (c :: seg).map key ≠ old := by
  induction h with
  | nil => exact absurd (List.infix_nil.1 hp) (List.cons_ne_nil _ _)
  | keep hold rest ih =>
      rcases List.infix_cons_iff.1 hp with hp | hp
      · have hcells := (Rewrites.keep hold rest).prefix_untouched hword hp hP hlast
        refine ⟨hcells.isInfix, ?_⟩
        rintro rfl
        exact hold (hcells.map key)
      · exact (ih hp).imp_left fun h => h.trans (List.suffix_cons _ _).isInfix
  | hit _ _ ih =>
      exact (ih (infix_of_append_of_head_not_mem hp hhead)).imp_left fun h =>
        h.trans (List.suffix_append _ _).isInfix

end Untouched

theorem Hit.subsegment {hit : List α} (h : Hit key old cells hit) : hit <:+: cells := by
  induction h with
  | here _ => exact (List.prefix_append _ _).isInfix
  | keep _ _ ih => exact ih.trans (List.suffix_cons _ _).isInfix
  | next _ _ ih => exact ih.trans (List.suffix_append _ _).isInfix

theorem Hit.reads {hit : List α} (h : Hit key old cells hit) : hit.map key = old := by
  induction h with
  | here hcopy => exact hcopy
  | keep _ _ ih => exact ih
  | next _ _ ih => exact ih

/-- What no hit takes stays. -/
theorem Rewrites.mem_of_unhit {c : α} (h : Rewrites key old new cells out) (hc : c ∈ cells)
    (hno : ∀ hit, Hit key old cells hit → c ∉ hit) : c ∈ out := by
  induction h with
  | nil => exact hc
  | keep hkeep _ ih =>
      rcases List.mem_cons.1 hc with rfl | hc
      · exact List.mem_cons_self
      · exact List.mem_cons_of_mem _ (ih hc fun hit hhit => hno hit (.keep hkeep hhit))
  | hit hcopy _ ih =>
      rcases List.mem_append.1 hc with hc | hc
      · exact absurd hc (hno _ (.here hcopy))
      · exact List.mem_append_right _ (ih hc fun hit hhit => hno hit (.next hcopy hhit))

/-! Where every hit that meets a stretch holds all of it, the stretch is replaced as a whole
or not at all. -/

section Whole

variable {kept : α → Prop} (hold : old ≠ []) (hnew : ∀ c ∈ new, ¬ kept c)
include hold hnew

/-- The cells of the stretch lie in one copy that was replaced. -/
def GoneWith (key : α → χ) (old : List χ) (cells out seg : List α) : Prop :=
  ∃ hit, Hit key old cells hit ∧ (∀ c ∈ seg, c ∈ hit) ∧ ∀ c ∈ seg, c ∉ out

theorem Rewrites.prefix_or_gone (h : Rewrites key old new cells out)
    (huniq : cells.Pairwise fun a b => kept a → a ≠ b) (hp : seg <+: cells)
    (hs : ∀ c ∈ seg, kept c) (hhits : ∀ hit, Hit key old cells hit →
      (∀ c ∈ seg, c ∈ hit) ∨ ∀ c ∈ seg, c ∉ hit) :
    seg <+: out ∨ GoneWith key old cells out seg := by
  induction h generalizing seg with
  | nil => exact Or.inl hp
  | @keep b cells out hkeep rest ih =>
      cases seg with
      | nil => exact Or.inl List.nil_prefix
      | cons c seg =>
          obtain ⟨rfl, htail⟩ := List.cons_prefix_cons.1 hp
          have hc := (List.pairwise_cons.1 huniq).1
          rcases ih (List.pairwise_cons.1 huniq).2 htail
              (fun d hd => hs d (List.mem_cons_of_mem _ hd)) (fun hit hhit =>
                (hhits hit (.keep hkeep hhit)).imp
                  (fun h d hd => h d (List.mem_cons_of_mem _ hd))
                  (fun h d hd => h d (List.mem_cons_of_mem _ hd))) with hout | hgone
          · exact Or.inl (List.cons_prefix_cons.2 ⟨rfl, hout⟩)
          · obtain ⟨hit, hhit, hin, hnot⟩ := hgone
            cases seg with
            | nil => exact Or.inl (List.cons_prefix_cons.2 ⟨rfl, List.nil_prefix⟩)
            | cons d seg =>
                -- a hit that holds the rest of the stretch would hold its head again
                rcases hhits hit (.keep hkeep hhit) with hall | hnone
                · exact absurd rfl (hc c (hhit.subsegment.subset (hall c List.mem_cons_self))
                    (hs c List.mem_cons_self))
                · exact absurd (hin d List.mem_cons_self)
                    (hnone d (List.mem_cons_of_mem _ List.mem_cons_self))
  | @hit copy cells out hcopy rest _ =>
      cases seg with
      | nil => exact Or.inl List.nil_prefix
      | cons c seg =>
          have hne : copy ≠ [] := by
            rintro rfl
            exact hold hcopy.symm
          obtain ⟨b, copy, rfl⟩ := List.exists_cons_of_ne_nil hne
          rcases hhits _ (.here hcopy) with hall | hnone
          · refine Or.inr ⟨_, .here hcopy, hall, ?_⟩
            intro d hd hout
            rcases List.mem_append.1 hout with hout | hout
            · exact hnew d hout (hs d hd)
            · rcases rest.mem hout with hmem | hmem
              · exact (List.pairwise_append.1 huniq).2.2 d (hall d hd) d hmem (hs d hd) rfl
              · exact hnew d hmem (hs d hd)
          · obtain ⟨rfl, _⟩ := List.cons_prefix_cons.1 hp
            exact absurd List.mem_cons_self (hnone c List.mem_cons_self)

theorem Rewrites.infix_or_gone (h : Rewrites key old new cells out)
    (huniq : cells.Pairwise fun a b => kept a → a ≠ b) (hp : seg <:+: cells)
    (hs : ∀ c ∈ seg, kept c) (hhits : ∀ hit, Hit key old cells hit →
      (∀ c ∈ seg, c ∈ hit) ∨ ∀ c ∈ seg, c ∉ hit) :
    seg <:+: out ∨ ∀ c ∈ seg, c ∉ out := by
  induction h with
  | nil => exact Or.inl hp
  | @keep b cells out hkeep rest ih =>
      rcases List.infix_cons_iff.1 hp with hhead | htail
      · exact ((Rewrites.keep hkeep rest).prefix_or_gone hold hnew huniq hhead hs hhits).imp
          (·.isInfix) fun ⟨_, _, _, hnot⟩ => hnot
      · have hb := (List.pairwise_cons.1 huniq).1
        rcases ih (List.pairwise_cons.1 huniq).2 htail (fun hit hhit =>
          hhits hit (.keep hkeep hhit)) with hout | hnot
        · exact Or.inl (hout.trans (List.suffix_cons _ _).isInfix)
        · refine Or.inr fun d hd hmem => ?_
          rcases List.mem_cons.1 hmem with rfl | hmem
          · exact hb d (htail.subset hd) (hs d hd) rfl
          · exact hnot d hd hmem
  | @hit copy cells out hcopy rest ih =>
      have hpair := List.pairwise_append.1 huniq
      have hgone : ∀ d ∈ seg, d ∈ new ++ out → d ∈ out := fun d hd hmem =>
        (List.mem_append.1 hmem).resolve_left fun hn => hnew d hn (hs d hd)
      rcases hhits copy (.here hcopy) with hall | hnone
      · refine Or.inr fun d hd hmem => ?_
        rcases rest.mem (hgone d hd hmem) with hmem | hmem
        · exact hpair.2.2 d (hall d hd) d hmem (hs d hd) rfl
        · exact hnew d hmem (hs d hd)
      · cases seg with
        | nil => exact Or.inl (List.nil_infix)
        | cons c seg =>
            rcases ih hpair.2.1 (infix_of_append_of_head_not_mem hp (hnone c List.mem_cons_self))
              (fun hit hhit => hhits hit (.next hcopy hhit)) with hout | hnot
            · exact Or.inl (hout.trans (List.suffix_append _ _).isInfix)
            · exact Or.inr fun d hd hmem => hnot d hd (hgone d hd hmem)

end Whole

end Replace

end Literal
