import Mathlib.Data.List.Basic
import Mathlib.Tactic.Common

/-!
# Substituting a pattern from left to right

A pattern tried at a place says what it captures there and what it leaves of the list. A
scan tries it at every place a match before does not cover, as a regular expression library
substitutes. Where parts of a text are set aside, a box stands for each of them; a pattern
that never begins or ends within a box rewrites the text around the boxes.
-/

namespace Scanning

variable {α β ι : Type*}

/-- What stands before a place, and what follows; what is captured, and what is left. -/
abbrev Pattern (α β : Type*) := Option α → List α → Option (β × List α)

/-- The elements that are left alone and the matches; the number is how much of the list the
last match still covers. -/
def scanFrom (m : Pattern α β) : Option α → ℕ → List α → List (α ⊕ β)
  | _, _, [] => []
  | _, covered + 1, c :: s => scanFrom m (some c) covered s
  | prev, 0, c :: s =>
      match m prev (c :: s) with
      | none => .inl c :: scanFrom m (some c) 0 s
      | some (b, rest) => .inr b :: scanFrom m (some c) (s.length - rest.length) s

def scan (m : Pattern α β) (s : List α) : List (α ⊕ β) := scanFrom m none 0 s

def captures (scanned : List (α ⊕ β)) : List β := scanned.filterMap Sum.getRight?

def write (out : β → List α) (scanned : List (α ⊕ β)) : List α :=
  scanned.flatMap (Sum.elim (fun c => [c]) out)

def sub (m : Pattern α β) (out : β → List α) (s : List α) : List α := write out (scan m s)

section Scan

variable {m : Pattern α β} {prev : Option α} {c : α} {b : β} {s x rest : List α}

theorem getLast?_or_some (x : List α) (c : α) (prev : Option α) :
    x.getLast?.or (some c) = (c :: x).getLast?.or prev := by
  rw [List.getLast?_cons]
  cases x.getLast? <;> rfl

@[simp] theorem scanFrom_nil {covered : ℕ} : scanFrom m prev covered [] = [] := by
  cases covered <;> rfl

theorem scanFrom_covered : scanFrom m prev x.length (x ++ s) =
    scanFrom m (x.getLast?.or prev) 0 s := by
  induction x generalizing prev with
  | nil => rfl
  | cons c x ih =>
      rw [List.cons_append, List.length_cons, scanFrom, ih, getLast?_or_some]

theorem scanFrom_none (h : m prev (c :: s) = none) :
    scanFrom m prev 0 (c :: s) = .inl c :: scanFrom m (some c) 0 s := by
  rw [scanFrom, h]

theorem scanFrom_match (hx : x ≠ []) (h : m prev (x ++ rest) = some (b, rest)) :
    scanFrom m prev 0 (x ++ rest) = .inr b :: scanFrom m x.getLast? 0 rest := by
  obtain ⟨c, x, rfl⟩ := List.exists_cons_of_ne_nil hx
  rw [List.cons_append] at h ⊢
  rw [scanFrom, h]
  have hlength : (x ++ rest).length - rest.length = x.length := by
    rw [List.length_append, Nat.add_sub_cancel]
  simp only [hlength, scanFrom_covered, getLast?_or_some x c none, Option.or_none]

/-- A part of the list in which the pattern matches nowhere. -/
theorem scanFrom_idle
    (h : ∀ u d v, x = u ++ d :: v → m (u.getLast?.or prev) (d :: (v ++ s)) = none) :
    scanFrom m prev 0 (x ++ s) = x.map .inl ++ scanFrom m (x.getLast?.or prev) 0 s := by
  induction x generalizing prev with
  | nil => rfl
  | cons c x ih =>
      have hrest : ∀ u d v, x = u ++ d :: v →
          m (u.getLast?.or (some c)) (d :: (v ++ s)) = none := by
        intro u d v hx
        rw [getLast?_or_some u c prev]
        exact h (c :: u) d v (by rw [hx, List.cons_append])
      have hfirst : m prev (c :: (x ++ s)) = none := h [] c x rfl
      rw [List.cons_append, scanFrom_none hfirst, ih hrest, getLast?_or_some x c prev]
      rfl

/-- What is left alone and what is written stand in the list, where each match writes a part of
what it takes. -/
theorem write_sublist {out : β → List α} (h : ∀ prev s b rest, m prev s = some (b, rest) →
      ∃ x, x ≠ [] ∧ s = x ++ rest ∧ (out b).Sublist x) (prev : Option α) (s : List α) :
    (write out (scanFrom m prev 0 s)).Sublist s := by
  induction hn : s.length using Nat.strongRecOn generalizing prev s with
  | ind n ih =>
    rcases s with _ | ⟨c, s⟩
    · exact List.nil_sublist _
    · cases hmatch : m prev (c :: s) with
      | none =>
          rw [scanFrom_none hmatch]
          exact (ih s.length (by simp [← hn]) (some c) s rfl).cons_cons c
      | some found =>
          obtain ⟨b, rest⟩ := found
          obtain ⟨x, hx, heq, hout⟩ := h prev _ b rest hmatch
          rw [heq] at hmatch hn ⊢
          rw [scanFrom_match hx hmatch]
          have hshort : rest.length < n := by
            have := List.length_pos_iff.2 hx
            rw [← hn, List.length_append]
            omega
          exact hout.append (ih rest.length hshort x.getLast? rest rfl)

theorem write_id {m : Pattern α (List α)}
    (h : ∀ prev s b rest, m prev s = some (b, rest) → b ≠ [] ∧ s = b ++ rest) (prev : Option α)
    (s : List α) : write id (scanFrom m prev 0 s) = s := by
  induction hn : s.length using Nat.strongRecOn generalizing prev s with
  | ind n ih =>
    rcases s with _ | ⟨c, s⟩
    · rfl
    · cases hmatch : m prev (c :: s) with
      | none =>
          rw [scanFrom_none hmatch]
          exact congrArg (c :: ·) (ih s.length (by simp [← hn]) (some c) s rfl)
      | some found =>
          obtain ⟨b, rest⟩ := found
          obtain ⟨hb, heq⟩ := h prev _ b rest hmatch
          have hshort : rest.length < n := by
            have hpos := List.length_pos_iff.2 hb
            rw [← hn, heq, List.length_append]
            omega
          rw [heq] at hmatch ⊢
          rw [scanFrom_match hb hmatch]
          exact congrArg (b ++ ·) (ih rest.length hshort b.getLast? rest rfl)

end Scan

section Boxes

variable (box : ι → List α)

def flat (toks : List (α ⊕ ι)) : List α := toks.flatMap (Sum.elim (fun c => [c]) box)

/-- What the boxes of a text stand for, in their order. -/
def marks (toks : List (α ⊕ ι)) : List ι := toks.filterMap Sum.getRight?

variable {box} {toks toks' : List (α ⊕ ι)}

@[simp] theorem flat_nil : flat box [] = [] := rfl

@[simp] theorem flat_inl (c : α) : flat box (.inl c :: toks) = c :: flat box toks := rfl

@[simp] theorem flat_inr (i : ι) : flat box (.inr i :: toks) = box i ++ flat box toks := rfl

@[simp] theorem flat_append : flat box (toks ++ toks') = flat box toks ++ flat box toks' :=
  List.flatMap_append

@[simp] theorem marks_nil : marks ([] : List (α ⊕ ι)) = [] := rfl

@[simp] theorem marks_inl (c : α) : marks (.inl c :: toks) = marks toks := rfl

@[simp] theorem marks_inr (i : ι) : marks (.inr i :: toks) = i :: marks toks := rfl

@[simp] theorem marks_append : marks (toks ++ toks') = marks toks ++ marks toks' :=
  List.filterMap_append

/-- An element that no box begins with, at the beginning. -/
theorem exists_tail (hnonempty : ∀ i, box i ≠ []) {d : α} (hd : ∀ i, (box i).head? ≠ some d)
    {y : List α} (h : flat box toks = d :: y) : ∃ toks', toks = .inl d :: toks' ∧
      flat box toks' = y := by
  rcases toks with _ | ⟨c | i, toks⟩
  · cases h
  · obtain ⟨rfl, hrest⟩ := List.cons.inj h
    exact ⟨toks, rfl, hrest⟩
  · obtain ⟨c, b, hbox⟩ := List.exists_cons_of_ne_nil (hnonempty i)
    rw [flat_inr, hbox, List.cons_append] at h
    obtain ⟨rfl, -⟩ := List.cons.inj h
    exact absurd (by rw [hbox]; rfl) (hd i)

theorem exists_plain (hnonempty : ∀ i, box i ≠ []) {x y : List α}
    (hx : ∀ d ∈ x, ∀ i, (box i).head? ≠ some d) (h : flat box toks = x ++ y) :
    ∃ toks', toks = x.map .inl ++ toks' ∧ flat box toks' = y := by
  induction x generalizing toks with
  | nil => exact ⟨toks, rfl, h⟩
  | cons d x ih =>
      obtain ⟨hd, hx⟩ := List.forall_mem_cons.1 hx
      obtain ⟨more, rfl, hmore⟩ := exists_tail hnonempty hd h
      obtain ⟨toks', rfl, hrest⟩ := ih hx hmore
      exact ⟨toks', rfl, hrest⟩

@[simp] theorem flat_map_inl (x : List α) : flat box (x.map .inl) = x := by
  induction x with
  | nil => rfl
  | cons c x ih => rw [List.map_cons, flat_inl, ih]

@[simp] theorem marks_map_inl (x : List α) : marks (x.map .inl : List (α ⊕ ι)) = [] := by
  induction x with
  | nil => rfl
  | cons c x ih => exact ih

theorem exists_cut {d : α} (hd : ∀ i, d ∉ box i) {x y : List α} (h : flat box toks = x ++ d :: y) :
    ∃ t t', toks = t ++ .inl d :: t' ∧ flat box t = x ∧ flat box t' = y := by
  induction toks generalizing x with
  | nil => simp at h
  | cons tok toks ih =>
      rcases tok with c | i
      · rcases x with _ | ⟨e, x⟩
        · obtain ⟨rfl, rfl⟩ := List.cons.inj h
          exact ⟨[], toks, rfl, rfl, rfl⟩
        · obtain ⟨rfl, hrest⟩ := List.cons.inj h
          obtain ⟨t, t', rfl, rfl, rfl⟩ := ih hrest
          exact ⟨.inl c :: t, t', rfl, rfl, rfl⟩
      · rw [flat_inr, List.append_eq_append_iff] at h
        rcases h with ⟨x', rfl, hrest⟩ | ⟨z, hbox, hrest⟩
        · obtain ⟨t, t', rfl, rfl, rfl⟩ := ih hrest
          exact ⟨.inr i :: t, t', rfl, rfl, rfl⟩
        · rcases z with _ | ⟨e, z⟩
          · rw [List.append_nil] at hbox
            obtain ⟨t, t', rfl, ht, rfl⟩ := ih (x := []) hrest.symm
            exact ⟨.inr i :: t, t', rfl, by rw [flat_inr, ht, hbox, List.append_nil], rfl⟩
          · obtain ⟨rfl, -⟩ := List.cons.inj hrest
            exact absurd (hbox ▸ List.mem_append_right _ List.mem_cons_self) (hd i)

theorem mem_marks {i : ι} : i ∈ marks toks ↔ .inr i ∈ toks := by
  simp [marks]

theorem infix_flat {i : ι} (h : .inr i ∈ toks) : box i <:+: flat box toks := by
  obtain ⟨t, t', rfl⟩ := List.append_of_mem h
  exact ⟨flat box t, flat box t', by simp⟩

theorem mem_flat {c : α} (h : c ∈ flat box toks) :
    .inl c ∈ toks ∨ ∃ i, .inr i ∈ toks ∧ c ∈ box i := by
  obtain ⟨tok, htok, hc⟩ := List.mem_flatMap.1 h
  rcases tok with d | i
  · exact Or.inl (List.mem_singleton.1 hc ▸ htok)
  · exact Or.inr ⟨i, htok, hc⟩

theorem mem_flat_of_mem {c : α} {tok : α ⊕ ι} (htok : tok ∈ toks) (hc : c ∈ flat box [tok]) :
    c ∈ flat box toks := by
  obtain ⟨t, t', rfl⟩ := List.append_of_mem htok
  rw [← List.singleton_append, flat_append, flat_append]
  exact List.mem_append_right _ (List.mem_append_left _ hc)

/-- What occurs once in a text stands in one token of it. -/
theorem eq_of_count_flat_le_one [DecidableEq α] {c : α} (hcount : (flat box toks).count c ≤ 1)
    {tok tok' : α ⊕ ι} (htok : tok ∈ toks) (htok' : tok' ∈ toks) (hc : c ∈ flat box [tok])
    (hc' : c ∈ flat box [tok']) : tok' = tok := by
  obtain ⟨t, t', rfl⟩ := List.append_of_mem htok
  rw [← List.singleton_append, flat_append, flat_append, List.count_append,
    List.count_append] at hcount
  have hone := List.count_pos_iff.2 hc
  rcases List.mem_append.1 htok' with hmem | hmem
  · have htwo := List.count_pos_iff.2 (mem_flat_of_mem hmem hc')
    omega
  · rcases List.mem_cons.1 hmem with rfl | hmem
    · rfl
    · have htwo := List.count_pos_iff.2 (mem_flat_of_mem hmem hc')
      omega

/-- What a scan makes of a text with boxes: each match rewrites a part of it. -/
inductive Rewrites (R : β → List (α ⊕ ι) → List (α ⊕ ι) → Prop) :
    List β → List (α ⊕ ι) → List (α ⊕ ι) → Prop
  | nil : Rewrites R [] [] []
  | keep (tok : α ⊕ ι) {bs : List β} {toks toks' : List (α ⊕ ι)} : Rewrites R bs toks toks' →
      Rewrites R bs (tok :: toks) (tok :: toks')
  | replace {b : β} {t o : List (α ⊕ ι)} (h : R b t o) {bs : List β} {toks toks' : List (α ⊕ ι)} :
      Rewrites R bs toks toks' → Rewrites R (b :: bs) (t ++ toks) (o ++ toks')

variable {m : Pattern α β} {out : β → List α} {R : β → List (α ⊕ ι) → List (α ⊕ ι) → Prop}

theorem exists_write_flat (hnonempty : ∀ i, box i ≠ [])
    (hbox : ∀ prev i s u d v, box i = u ++ d :: v → m (u.getLast?.or prev) (d :: (v ++ s)) = none)
    (hmatch : ∀ prev toks b rest, m prev (flat box toks) = some (b, rest) →
      ∃ t toks' o, toks = t ++ toks' ∧ t ≠ [] ∧ rest = flat box toks' ∧ R b t o ∧
        out b = flat box o)
    (prev : Option α) (toks : List (α ⊕ ι)) :
    ∃ toks', write out (scanFrom m prev 0 (flat box toks)) = flat box toks' ∧
      Rewrites R (captures (scanFrom m prev 0 (flat box toks))) toks toks' := by
  induction hn : toks.length using Nat.strongRecOn generalizing prev toks with
  | ind n ih =>
    rcases toks with _ | ⟨c | i, toks⟩
    · exact ⟨[], rfl, .nil⟩
    · cases h : m prev (flat box (.inl c :: toks)) with
      | none =>
          rw [flat_inl] at h ⊢
          rw [scanFrom_none h]
          obtain ⟨toks', hwrite, hrewrites⟩ := ih toks.length (by simp [← hn]) (some c) toks rfl
          refine ⟨.inl c :: toks', ?_, .keep _ hrewrites⟩
          rw [flat_inl, ← hwrite]
          rfl
      | some found =>
          obtain ⟨b, rest⟩ := found
          obtain ⟨t, more, o, htoks, ht, rfl, hR, hout⟩ := hmatch prev _ b rest h
          have hshort : more.length < n := by
            rw [← hn, htoks, List.length_append]
            have := List.length_pos_iff.2 ht
            omega
          have hx : flat box t ≠ [] := by
            obtain ⟨tok, t, rfl⟩ := List.exists_cons_of_ne_nil ht
            rcases tok with d | i
            · exact List.cons_ne_nil _ _
            · exact fun hnil => hnonempty i (List.append_eq_nil_iff.1 hnil).1
          obtain ⟨toks', hwrite, hrewrites⟩ := ih more.length hshort (flat box t).getLast? more rfl
          rw [htoks, flat_append] at h ⊢
          rw [scanFrom_match hx h]
          refine ⟨o ++ toks', ?_, .replace hR hrewrites⟩
          rw [flat_append, ← hwrite, ← hout]
          rfl
    · obtain ⟨toks', hwrite, hrewrites⟩ :=
        ih toks.length (by simp [← hn]) ((box i).getLast?.or prev) toks rfl
      have hidle := scanFrom_idle (s := flat box toks) (hbox prev i (flat box toks))
      refine ⟨.inr i :: toks', ?_, ?_⟩
      · rw [flat_inr, hidle, flat_inr, ← hwrite]
        simp [write, List.flatMap_append, List.flatMap_map]
      · rw [flat_inr, hidle]
        have hnone : captures ((box i).map (Sum.inl : α → α ⊕ β)) = [] := by
          simp [captures]
        rw [captures, List.filterMap_append, ← captures, hnone]
        exact .keep _ hrewrites

end Boxes

section Blocks

variable {σ γ : Type*} {m : Pattern α β} {x y : List α} {scanned scanned' : List (α ⊕ β)}

/-- Whatever stands around it, a part is scanned in one way. -/
def Scans (m : Pattern α β) (x : List α) (scanned : List (α ⊕ β)) : Prop :=
  ∀ prev s, ∃ prev', scanFrom m prev 0 (x ++ s) = scanned ++ scanFrom m prev' 0 s

theorem Scans.nil : Scans m [] [] := fun prev _ => ⟨prev, rfl⟩

theorem Scans.append (h : Scans m x scanned) (h' : Scans m y scanned') :
    Scans m (x ++ y) (scanned ++ scanned') := by
  intro prev s
  obtain ⟨prev', hx⟩ := h prev (y ++ s)
  obtain ⟨prev'', hy⟩ := h' prev' s
  exact ⟨prev'', by rw [List.append_assoc, hx, hy, List.append_assoc]⟩

theorem Scans.flatMap {render : σ → List α} {scanned : σ → List (α ⊕ β)} {blocks : List σ}
    (h : ∀ b ∈ blocks, Scans m (render b) (scanned b)) :
    Scans m (blocks.flatMap render) (blocks.flatMap scanned) := by
  induction blocks with
  | nil => exact .nil
  | cons b blocks ih =>
      obtain ⟨hb, hblocks⟩ := List.forall_mem_cons.1 h
      exact hb.append (ih hblocks)

theorem Scans.scan_eq (h : Scans m x scanned) : scan m x = scanned := by
  obtain ⟨prev', hx⟩ := h none []
  rwa [List.append_nil, scanFrom_nil, List.append_nil] at hx

theorem scans_of_idle (h : ∀ prev u d v s, x = u ++ d :: v → m prev (d :: (v ++ s)) = none) :
    Scans m x (x.map .inl) := fun _ s =>
  ⟨_, scanFrom_idle fun u d v hx => h _ u d v s hx⟩

theorem Scans.of_match {b : β} (h' : Scans m y scanned') (hx : x ≠ [])
    (h : ∀ prev s, m prev (x ++ (y ++ s)) = some (b, y ++ s)) :
    Scans m (x ++ y) (.inr b :: scanned') := by
  intro prev s
  obtain ⟨prev', hy⟩ := h' x.getLast? s
  exact ⟨prev', by rw [List.append_assoc, scanFrom_match hx (h prev s), hy, List.cons_append]⟩

theorem scans_of_match {b : β} (hx : x ≠ []) (h : ∀ prev s, m prev (x ++ s) = some (b, s)) :
    Scans m x [.inr b] := by
  have hmatch := Scans.nil.of_match (m := m) (x := x) hx h
  rwa [List.append_nil] at hmatch

theorem Scans.self (h : Scans m x scanned) : Scans m x (scan m x) := by
  rw [h.scan_eq]
  exact h

theorem Scans.sub_flatMap {render : σ → List α} {scanned : σ → List (α ⊕ β)} {blocks : List σ}
    (h : ∀ b ∈ blocks, Scans m (render b) (scanned b)) (out : β → List α) :
    sub m out (blocks.flatMap render) = blocks.flatMap fun b => write out (scanned b) := by
  rw [sub, (Scans.flatMap h).scan_eq, write, List.flatMap_assoc]
  rfl

/-- A scan of a text does what a scan of its blocks does, where a pattern of blocks says which
of them the pattern of the text takes. -/
theorem write_scanFrom_flatMap {render : σ → List α} {m' : Pattern σ γ} {out : β → List α}
    {out' : γ → List σ} {P : σ → Prop}
    (hidle : ∀ prev prev' b blocks, P b → (∀ b ∈ blocks, P b) → m' prev' (b :: blocks) = none →
      ∀ u d v, render b = u ++ d :: v → m prev (d :: (v ++ blocks.flatMap render)) = none)
    (hmatch : ∀ prev prev' blocks c rest, (∀ b ∈ blocks, P b) → m' prev' blocks = some (c, rest) →
      ∃ taken b, blocks = taken ++ rest ∧ taken.flatMap render ≠ [] ∧
        m prev (blocks.flatMap render) = some (b, rest.flatMap render) ∧
        out b = (out' c).flatMap render)
    (prev : Option α) (prev' : Option σ) {blocks : List σ} (hblocks : ∀ b ∈ blocks, P b) :
    write out (scanFrom m prev 0 (blocks.flatMap render)) =
      (write out' (scanFrom m' prev' 0 blocks)).flatMap render := by
  induction hn : blocks.length using Nat.strongRecOn generalizing prev prev' blocks with
  | ind n ih =>
    rcases blocks with _ | ⟨b, blocks⟩
    · rfl
    · obtain ⟨hb, hmore⟩ := List.forall_mem_cons.1 hblocks
      cases h : m' prev' (b :: blocks) with
      | none =>
          have hidle' := scanFrom_idle (s := blocks.flatMap render) fun u d v hr =>
            hidle (u.getLast?.or prev) prev' b blocks hb hmore h u d v hr
          have hrest := ih blocks.length (by simp [← hn]) ((render b).getLast?.or prev) (some b)
            hmore rfl
          rw [scanFrom_none h, List.flatMap_cons, hidle']
          have hwrite : write out ((render b).map .inl) = render b := by
            simp [write, List.flatMap_map]
          rw [write, List.flatMap_append, ← write, ← write, hwrite, hrest]
          rfl
      | some found =>
          obtain ⟨c, rest⟩ := found
          obtain ⟨taken, b', htaken, hne, hm, hout⟩ := hmatch prev prev' _ c rest hblocks h
          have htaken_ne : taken ≠ [] := fun hnil => hne (by rw [hnil]; rfl)
          have hshort : rest.length < n := by
            have hpos := List.length_pos_iff.2 htaken_ne
            rw [← hn, htaken, List.length_append]
            omega
          rw [htaken] at h hm hblocks ⊢
          rw [List.flatMap_append] at hm ⊢
          rw [scanFrom_match htaken_ne h, scanFrom_match hne hm]
          have hrest := ih rest.length hshort (taken.flatMap render).getLast? taken.getLast?
            (fun b hb => hblocks b (List.mem_append_right _ hb)) rfl
          have hcons : write out' (.inr c :: scanFrom m' taken.getLast? 0 rest) =
              out' c ++ write out' (scanFrom m' taken.getLast? 0 rest) := rfl
          rw [hcons, List.flatMap_append, ← hrest, ← hout]
          rfl

end Blocks

end Scanning
