import Mathlib.Data.List.Sort
import Mathlib.Tactic

/-!
# Writing back a unique column

A table holds a key for each row and refuses a key that another row holds. Keys that
changed in memory are written back one row at a time, in the order of the rows'
identifiers: the state in memory may be without duplicates and the write still be
refused, exactly when a row takes the key of one that is only written after it.
-/

namespace UniqueColumn

variable {ι κ : Type*} [LinearOrder ι] [DecidableEq κ]

abbrev Table (ι κ : Type*) := List (ι × κ)

/-- `UPDATE` of one row; `none` is the refusal of the constraint. -/
def put (t : Table ι κ) (r : ι × κ) : Option (Table ι κ) :=
  if ∃ s ∈ t, s.1 ≠ r.1 ∧ s.2 = r.2 then none
  else some (t.map fun s => if s.1 = r.1 then r else s)

def dirty (t target : Table ι κ) : Table ι κ := target.filter fun r => r ∉ t

/-- The changed rows written back in the order of their identifiers. -/
def flush (t target : Table ι κ) : Option (Table ι κ) :=
  ((dirty t target).mergeSort fun r s => r.1 ≤ s.1).foldlM put t

/-- No changed row takes the key of a changed row with a greater identifier. -/
def Clear (t target : Table ι κ) : Prop :=
  ∀ r ∈ target, r ∉ t → ∀ s ∈ t, s ∉ target → r.1 < s.1 → r.2 ≠ s.2

instance (t target : Table ι κ) : Decidable (Clear t target) :=
  inferInstanceAs (Decidable (∀ r ∈ target, r ∉ t → ∀ s ∈ t, s ∉ target → r.1 < s.1 → r.2 ≠ s.2))

def overwrite (t rows : Table ι κ) : Table ι κ :=
  t.map fun s => (rows.find? fun r => r.1 = s.1).getD s

variable {t target rows : Table ι κ} {r s : ι × κ}

omit [DecidableEq κ] in
@[simp] theorem overwrite_nil : overwrite t ([] : Table ι κ) = t := by
  simp [overwrite]

omit [DecidableEq κ] in
theorem overwrite_cons (hr : r.1 ∉ rows.map Prod.fst) :
    overwrite t (r :: rows) = overwrite (t.map fun s => if s.1 = r.1 then r else s) rows := by
  unfold overwrite
  rw [List.map_map]
  apply List.map_congr_left
  intro s _
  by_cases hs : s.1 = r.1
  · have hnone : rows.find? (fun r' => r'.1 = r.1) = none := by
      apply List.find?_eq_none.2
      intro r' hr'
      have hne : r'.1 ≠ r.1 := fun he => hr (List.mem_map.2 ⟨r', hr', he⟩)
      simpa using hne
    simp [hs, hnone]
  · simp [hs, Ne.symm hs]

omit [DecidableEq κ] in
theorem mem_overwrite_of_not_mem (hs : s ∈ t) (hrows : s.1 ∉ rows.map Prod.fst) :
    s ∈ overwrite t rows := by
  have hnone : rows.find? (fun r => r.1 = s.1) = none := by
    apply List.find?_eq_none.2
    intro r hr
    have hne : r.1 ≠ s.1 := fun he => hrows (List.mem_map.2 ⟨r, hr, he⟩)
    simpa using hne
  exact List.mem_map.2 ⟨s, hs, by simp [hnone]⟩

omit [DecidableEq κ] in
theorem mem_overwrite_of_mem (hrows : (rows.map Prod.fst).Nodup) (hr : r ∈ rows)
    (ht : r.1 ∈ t.map Prod.fst) : r ∈ overwrite t rows := by
  obtain ⟨s, hs, hid⟩ := List.mem_map.1 ht
  refine List.mem_map.2 ⟨s, hs, ?_⟩
  cases hfind : rows.find? fun r' => r'.1 = s.1 with
  | none => exact absurd hid.symm (by simpa using List.find?_eq_none.1 hfind r hr)
  | some r' =>
      have hid' : r'.1 = s.1 := by simpa using List.find?_some hfind
      exact List.inj_on_of_nodup_map hrows (List.mem_of_find?_eq_some hfind) hr (hid'.trans hid)

/-- Rows written in the order of their identifiers, onto keys that end up distinct: the
writes go through exactly when none takes the key of a row still to be written. -/
theorem foldlM_put (hsorted : rows.Pairwise fun r s => r.1 < s.1)
    (hids : ∀ r ∈ rows, r.1 ∈ t.map Prod.fst)
    (hkeys : ((overwrite t rows).map Prod.snd).Nodup) :
    rows.foldlM put t =
      if ∀ r ∈ rows, ∀ s ∈ t, s.1 ∈ rows.map Prod.fst → r.1 < s.1 → r.2 ≠ s.2
      then some (overwrite t rows) else none := by
  induction rows generalizing t with
  | nil => simp
  | cons r rows ih =>
      obtain ⟨hlater, hrest⟩ := List.pairwise_cons.1 hsorted
      have hnodup : ((r :: rows).map Prod.fst).Nodup :=
        (List.pairwise_map.2 (hsorted.imp fun h => h.ne) : _)
      have hr : r.1 ∉ rows.map Prod.fst := (List.nodup_cons.1 hnodup).1
      let t₁ := t.map fun s => if s.1 = r.1 then r else s
      have hover : overwrite t (r :: rows) = overwrite t₁ rows := overwrite_cons hr
      have hids₁ : t₁.map Prod.fst = t.map Prod.fst := by
        rw [List.map_map]
        apply List.map_congr_left
        intro s _
        by_cases hs : s.1 = r.1 <;> simp [hs]
      -- a conflict is with a row that is written later
      have hput : (∃ s ∈ t, s.1 ≠ r.1 ∧ s.2 = r.2) ↔
          ∃ s ∈ t, s.1 ∈ rows.map Prod.fst ∧ r.2 = s.2 := by
        constructor
        · rintro ⟨s, hs, hne, hkey⟩
          refine ⟨s, hs, ?_, hkey.symm⟩
          by_contra hno
          have hs' : s ∈ overwrite t (r :: rows) :=
            mem_overwrite_of_not_mem hs (by simpa using ⟨hne, by simpa using hno⟩)
          have hr' : r ∈ overwrite t (r :: rows) :=
            mem_overwrite_of_mem hnodup List.mem_cons_self (hids r List.mem_cons_self)
          rw [List.inj_on_of_nodup_map hkeys hs' hr' hkey] at hne
          exact hne rfl
        · rintro ⟨s, hs, hid, hkey⟩
          exact ⟨s, hs, fun he => hr (he ▸ hid), hkey.symm⟩
      rw [List.foldlM_cons]
      by_cases hconflict : ∃ s ∈ t, s.1 ≠ r.1 ∧ s.2 = r.2
      · obtain ⟨s, hs, hid, hkey⟩ := hput.1 hconflict
        rw [put, if_pos hconflict, if_neg]
        · rfl
        · intro hclear
          obtain ⟨r', hr', he⟩ := List.mem_map.1 hid
          exact hclear r List.mem_cons_self s hs (by simpa using Or.inr (by simpa using hid))
            (he ▸ hlater r' hr') hkey
      · rw [put, if_neg hconflict]
        change rows.foldlM put t₁ = _
        rw [ih hrest (fun r' hr' => hids₁ ▸ hids r' (List.mem_cons_of_mem r hr'))
          (hover ▸ hkeys), hover]
        congr 1
        apply propext
        constructor
        · intro hclear r' hr' s hs hid hlt hkey
          rcases List.mem_cons.1 hr' with rfl | hr'
          · apply hconflict
            exact ⟨s, hs, hlt.ne', hkey.symm⟩
          · have hne : s.1 ≠ r.1 := ((hlater r' hr').trans hlt).ne'
            have hid' : s.1 ∈ rows.map Prod.fst := by
              rcases List.mem_cons.1 hid with he | hid
              · exact absurd he hne
              · exact hid
            exact hclear r' hr' s (List.mem_map.2 ⟨s, hs, if_neg hne⟩) hid' hlt hkey
        · intro hclear r' hr' s hs hid hlt hkey
          obtain ⟨s₀, hs₀, rfl⟩ := List.mem_map.1 hs
          have hne : s₀.1 ≠ r.1 := by
            intro he
            rw [if_pos he] at hlt
            exact absurd hlt (hlater r' hr').not_gt
          rw [if_neg hne] at hid hlt hkey
          exact hclear r' (List.mem_cons_of_mem r hr') s₀ hs₀ (List.mem_cons_of_mem _ hid) hlt hkey

theorem find?_key {α γ : Type*} [DecidableEq γ] {key : α → γ} {xs : List α}
    (hnodup : (xs.map key).Nodup) {k : γ} {x : α} :
    (xs.find? fun y => key y = k) = some x ↔ x ∈ xs ∧ key x = k := by
  constructor
  · intro h
    exact ⟨List.mem_of_find?_eq_some h, by simpa using List.find?_some h⟩
  · rintro ⟨hx, rfl⟩
    cases hfind : xs.find? fun y => key y = key x with
    | none => exact absurd (decide_eq_true rfl) (List.find?_eq_none.1 hfind x hx)
    | some y =>
        have hkey : key y = key x := by simpa using List.find?_some hfind
        rw [List.inj_on_of_nodup_map hnodup (List.mem_of_find?_eq_some hfind) hx hkey]

omit [DecidableEq κ] in
theorem find?_eq_of_mem (hnodup : (rows.map Prod.fst).Nodup) (hr : r ∈ rows) :
    (rows.find? fun s => s.1 = r.1) = some r :=
  (find?_key hnodup).2 ⟨hr, rfl⟩

omit [DecidableEq κ] in
/-- A table over the same rows is what writing all of them leaves. -/
theorem overwrite_target (hids : t.map Prod.fst = target.map Prod.fst)
    (hnodup : (target.map Prod.fst).Nodup) : overwrite t target = target := by
  have hlength : t.length = target.length := by
    simpa using congrArg List.length hids
  apply List.ext_getElem
  · rw [overwrite, List.length_map, hlength]
  · intro i hi hi'
    have hit : i < t.length := hlength ▸ hi'
    have hid : t[i].1 = target[i].1 := by
      have hget : (t.map Prod.fst)[i]? = (target.map Prod.fst)[i]? := by rw [hids]
      simpa [List.getElem?_eq_getElem hit, List.getElem?_eq_getElem hi'] using hget
    simp only [overwrite, List.getElem_map, hid]
    rw [find?_eq_of_mem hnodup (List.getElem_mem hi'), Option.getD_some]

theorem mem_dirty : r ∈ dirty t target ↔ r ∈ target ∧ r ∉ t := by
  simp [dirty]

theorem overwrite_dirty (hids : t.map Prod.fst = target.map Prod.fst)
    (hnodup : (target.map Prod.fst).Nodup) (hrows : rows.Perm (dirty t target)) :
    overwrite t rows = target := by
  have hrowsNodup : (rows.map Prod.fst).Nodup :=
    (hrows.map Prod.fst).nodup_iff.2 (hnodup.sublist (List.filter_sublist.map _))
  rw [← overwrite_target hids hnodup]
  conv_lhs => rw [overwrite]
  conv_rhs => rw [overwrite_target hids hnodup, ← overwrite_target hids hnodup, overwrite]
  apply List.map_congr_left
  intro s hs
  obtain ⟨r, hr, hid⟩ := List.mem_map.1 (hids ▸ List.mem_map_of_mem hs : s.1 ∈ target.map Prod.fst)
  rw [← hid, find?_eq_of_mem hnodup hr, Option.getD_some]
  by_cases ht : r ∈ t
  · -- the row did not change, and none of those written has its identifier
    have heq : s = r := List.inj_on_of_nodup_map (hids ▸ hnodup) hs ht hid.symm
    have hnone : rows.find? (fun r' => r'.1 = r.1) = none := by
      apply List.find?_eq_none.2
      intro r' hr'
      obtain ⟨htarget, hchanged⟩ := mem_dirty.1 (hrows.mem_iff.1 hr')
      have hne : r'.1 ≠ r.1 := by
        intro he
        rw [List.inj_on_of_nodup_map hnodup htarget hr he] at hchanged
        exact hchanged ht
      simpa using hne
    rw [hnone, heq]
    rfl
  · have hmem : r ∈ rows := hrows.mem_iff.2 (mem_dirty.2 ⟨hr, ht⟩)
    rw [find?_eq_of_mem hrowsNodup hmem, Option.getD_some]

/-- A write-back goes through exactly when it is clear, and leaves the state in memory. -/
theorem flush_eq (hids : t.map Prod.fst = target.map Prod.fst)
    (hnodup : (target.map Prod.fst).Nodup) (hkeys : (target.map Prod.snd).Nodup) :
    flush t target = if Clear t target then some target else none := by
  have hperm : ((dirty t target).mergeSort fun r s => r.1 ≤ s.1).Perm (dirty t target) :=
    List.mergeSort_perm _ _
  have hover := overwrite_dirty hids hnodup hperm
  have hfst : (((dirty t target).mergeSort fun r s => r.1 ≤ s.1).map Prod.fst).Nodup :=
    (hperm.map Prod.fst).nodup_iff.2 (hnodup.sublist (List.filter_sublist.map _))
  have hsorted : ((dirty t target).mergeSort fun r s => r.1 ≤ s.1).Pairwise
      fun r s => r.1 < s.1 := by
    have hle : ((dirty t target).mergeSort fun r s => r.1 ≤ s.1).Pairwise
        fun r s => decide (r.1 ≤ s.1) = true :=
      List.pairwise_mergeSort (by simpa using fun a b c d e f => le_trans)
        (by simpa using fun a _ c _ => le_total a c) (dirty t target)
    have hne := List.pairwise_map.1 hfst
    exact (hle.and hne).imp fun h => lt_of_le_of_ne (by simpa using h.1) h.2
  rw [flush, foldlM_put hsorted, hover]
  · congr 1
    apply propext
    constructor
    · intro h r hr hrt s hs hst hlt
      have hr' := hperm.mem_iff.2 (mem_dirty.2 ⟨hr, hrt⟩)
      apply h r hr' s hs _ hlt
      obtain ⟨s', hs', hid⟩ := List.mem_map.1
        (hids ▸ List.mem_map_of_mem hs : s.1 ∈ target.map Prod.fst)
      refine List.mem_map.2 ⟨s', hperm.mem_iff.2 (mem_dirty.2 ⟨hs', fun ht => ?_⟩), hid⟩
      rw [List.inj_on_of_nodup_map (hids ▸ hnodup) ht hs hid] at hs'
      exact hst hs'
    · intro h r hr s hs hid hlt
      obtain ⟨hr', hrt⟩ := mem_dirty.1 (hperm.mem_iff.1 hr)
      apply h r hr' hrt s hs _ hlt
      intro hst
      obtain ⟨s', hs', he⟩ := List.mem_map.1 hid
      obtain ⟨hs'', hst'⟩ := mem_dirty.1 (hperm.mem_iff.1 hs')
      rw [List.inj_on_of_nodup_map hnodup hs'' hst he] at hst'
      exact hst' hs
  · intro r hr
    rw [hids]
    exact List.mem_map_of_mem (mem_dirty.1 (hperm.mem_iff.1 hr)).1
  · rw [hover]
    exact hkeys

omit [DecidableEq κ] in
theorem clear_of_single {i : ι} {k : κ} :
    Clear t (t.map fun r => if r.1 = i then (r.1, k) else r) := by
  intro r hr hrt s hs hst hlt
  have hri : r.1 = i := by
    obtain ⟨r₀, hr₀, rfl⟩ := List.mem_map.1 hr
    split_ifs with h
    · exact h
    · rw [if_neg h] at hrt
      exact absurd hr₀ hrt
  have hsi : s.1 = i := by
    by_contra h
    exact hst (List.mem_map.2 ⟨s, hs, if_neg h⟩)
  exact absurd hlt (by rw [hri, hsi]; exact lt_irrefl i)

end UniqueColumn
