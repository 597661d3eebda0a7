import IcebergSST.Wiki

/-!
# What becomes of code blocks

Each pattern rewrites the text around the placeholders: it takes whole placeholders or none.
All of them keep the ones they take, but for the macro markers, which are deleted with their
parameters.
-/

namespace IcebergSST.Wiki

open Scanning Squeeze

variable {digits : DecimalDigits} {prev : Option ℕ} {s rest : PyStr} {c : ℕ}

theorem one_eq_some : one c s = some rest ↔ s = c :: rest := by
  cases s with
  | nil => simp [one]
  | cons d s => simp [one]

theorem upTo_eq_some {inClass : ℕ → Bool} {most : ℕ} {run : PyStr}
    (h : upTo inClass most s = some (run, rest)) : s = run ++ rest ∧ ∀ c ∈ run, inClass c := by
  unfold upTo at h
  dsimp only at h
  split_ifs at h
  obtain ⟨rfl, rfl⟩ := Prod.mk.inj (Option.some.inj h)
  exact ⟨List.takeWhile_append_dropWhile.symm, fun c hc => List.mem_takeWhile_imp hc⟩

theorem lazily_eq_some {stop : PyStr → Option PyStr} {most : ℕ} {found : PyStr}
    (h : lazily stop most s = some (found, rest)) : ∃ more, s = found ++ more ∧
      stop more = some rest := by
  induction s generalizing most found with
  | nil =>
      obtain ⟨rest', hstop, heq⟩ := Option.map_eq_some_iff.1 h
      obtain ⟨rfl, rfl⟩ := Prod.mk.inj heq
      exact ⟨[], rfl, hstop⟩
  | cons c s ih =>
      rw [lazily] at h
      split at h
      · rename_i rest' hstop
        obtain ⟨rfl, rfl⟩ := Prod.mk.inj (Option.some.inj h)
        exact ⟨c :: s, rfl, hstop⟩
      · split_ifs at h
        obtain ⟨⟨found', rest'⟩, hfound, heq⟩ := Option.map_eq_some_iff.1 h
        obtain ⟨rfl, rfl⟩ := Prod.mk.inj heq
        obtain ⟨more, rfl, hstop⟩ := ih hfound
        exact ⟨more, rfl, hstop⟩

theorem parameter_eq_some {param : PyStr} (h : parameter s = some (param, rest)) :
    s = 0x3a :: (param ++ 0x7d :: rest) ∨ param = [] ∧ s = 0x7d :: rest := by
  unfold parameter at h
  split at h
  · rename_i s' hone
    obtain rfl := one_eq_some.1 hone
    simp only [Option.bind_eq_bind, Option.bind_eq_some_iff, Option.pure_def] at h
    obtain ⟨⟨run, s''⟩, hrun, rest', hclose, heq⟩ := h
    obtain ⟨rfl, rfl⟩ := Prod.mk.inj (Option.some.inj heq)
    obtain ⟨rfl, -⟩ := upTo_eq_some hrun
    obtain rfl := one_eq_some.1 hclose
    exact Or.inl rfl
  · simp only [Option.bind_eq_bind, Option.bind_eq_some_iff, Option.pure_def] at h
    obtain ⟨rest', hclose, heq⟩ := h
    obtain ⟨rfl, rfl⟩ := Prod.mk.inj (Option.some.inj heq)
    exact Or.inr ⟨rfl, one_eq_some.1 hclose⟩

theorem monospace_eq_some {body : PyStr} (h : monospace prev s = some (body, rest)) :
    s = 0x7b :: 0x7b :: (body ++ 0x7d :: 0x7d :: rest) := by
  simp only [monospace, Option.bind_eq_bind, Option.bind_eq_some_iff] at h
  obtain ⟨s', hone, s'', htwo, hbody⟩ := h
  obtain rfl := one_eq_some.1 hone
  obtain rfl := one_eq_some.1 htwo
  obtain ⟨more, rfl, hstop⟩ := lazily_eq_some hbody
  obtain ⟨more', hthree, hfour⟩ := Option.bind_eq_some_iff.1 hstop
  rw [one_eq_some.1 hthree, one_eq_some.1 hfour]

theorem link_eq_some {found : PyStr × PyStr} (h : link prev s = some (found, rest)) :
    s = 0x5b :: (found.1 ++ 0x7c :: (found.2 ++ 0x5d :: rest)) := by
  simp only [link, Option.bind_eq_bind, Option.bind_eq_some_iff, Option.pure_def] at h
  obtain ⟨s₁, hopen, ⟨label, s₂⟩, hlabel, s₃, hbar, ⟨target, s₄⟩, htarget, rest', hclose,
    heq⟩ := h
  obtain ⟨rfl, rfl⟩ := Prod.mk.inj (Option.some.inj heq)
  obtain rfl := one_eq_some.1 hopen
  obtain ⟨rfl, -⟩ := upTo_eq_some hlabel
  obtain rfl := one_eq_some.1 hbar
  obtain ⟨rfl, -⟩ := upTo_eq_some htarget
  obtain rfl := one_eq_some.1 hclose
  rfl

theorem bareLink_eq_some {target : PyStr} (h : bareLink prev s = some (target, rest)) :
    s = 0x5b :: (target ++ 0x5d :: rest) := by
  simp only [bareLink, Option.bind_eq_bind, Option.bind_eq_some_iff, Option.pure_def] at h
  obtain ⟨s₁, hopen, ⟨target', s₂⟩, htarget, rest', hclose, heq⟩ := h
  obtain ⟨rfl, rfl⟩ := Prod.mk.inj (Option.some.inj heq)
  obtain rfl := one_eq_some.1 hopen
  obtain ⟨rfl, -⟩ := upTo_eq_some htarget
  obtain rfl := one_eq_some.1 hclose
  rfl

theorem macroMarker_eq_some {param : PyStr} (h : macroMarker prev s = some (param, rest)) :
    ∃ name, 0 ∉ name ∧ (s = 0x7b :: (name ++ 0x3a :: (param ++ 0x7d :: rest)) ∨
      param = [] ∧ s = 0x7b :: (name ++ 0x7d :: rest)) := by
  simp only [macroMarker, Option.bind_eq_bind, Option.bind_eq_some_iff] at h
  obtain ⟨s₁, hopen, h⟩ := h
  obtain rfl := one_eq_some.1 hopen
  rcases s₁ with _ | ⟨c, s₁⟩
  · cases h
  · dsimp only at h
    split_ifs at h with hletter
    obtain ⟨⟨run, s₂⟩, hrun, hparam⟩ := Option.bind_eq_some_iff.1 h
    obtain ⟨rfl, hname⟩ := upTo_eq_some hrun
    refine ⟨c :: run, ?_, ?_⟩
    · rintro hzero
      rcases List.mem_cons.1 hzero with rfl | hzero
      · exact absurd hletter (by decide)
      · exact absurd (hname 0 hzero) (by decide)
    · rcases parameter_eq_some hparam with rfl | ⟨rfl, rfl⟩
      · exact Or.inl rfl
      · exact Or.inr ⟨rfl, rfl⟩

theorem notMem_of_isBlankOrTab {run : PyStr} (h : ∀ c ∈ run, isBlankOrTab c) : 0 ∉ run :=
  fun hzero => absurd (h 0 hzero) (by decide)

theorem prefixMark_eq_some (h : prefixMark s = some rest) :
    ∃ x, x ≠ [] ∧ 0 ∉ x ∧ s = x ++ rest := by
  unfold prefixMark at h
  split at h
  · rename_i c d s
    split_ifs at h with hmark
    obtain rfl := one_eq_some.1 h
    refine ⟨[c, d, 0x2e], List.cons_ne_nil _ _, ?_, rfl⟩
    have hc : c ≠ 0 := by
      rintro rfl
      simp [asciiLower] at hmark
    have hd : d ≠ 0 := by
      rintro rfl
      simp [asciiLower] at hmark
    simp [hc.symm, hd.symm]
  · cases h

theorem linePrefix_eq_some {u : Unit} (h : linePrefix prev s = some (u, rest)) :
    atLineStart prev ∧ ∃ x, x ≠ [] ∧ 0 ∉ x ∧ s = x ++ rest := by
  unfold linePrefix at h
  split_ifs at h with hstart
  simp only [Option.bind_eq_bind, Option.bind_eq_some_iff, Option.pure_def] at h
  obtain ⟨⟨run, s₁⟩, hrun, s₂, hmark, heq⟩ := h
  obtain ⟨rfl, hblank⟩ := upTo_eq_some hrun
  obtain ⟨x, hx, hzero, rfl⟩ := prefixMark_eq_some hmark
  have hrest := (Prod.mk.inj (Option.some.inj heq)).2
  have hsplit : s₂ = s₂.take (min 4 (s₂.takeWhile isBlankOrTab).length) ++ rest := by
    rw [← hrest, List.take_append_drop]
  have htrail : 0 ∉ s₂.take (min 4 (s₂.takeWhile isBlankOrTab).length) := by
    intro hmem
    have hprefix : s₂.take (min 4 (s₂.takeWhile isBlankOrTab).length) <+:
        s₂.takeWhile isBlankOrTab := by
      refine List.prefix_of_prefix_length_le (List.take_prefix _ _) (List.takeWhile_prefix _) ?_
      rw [List.length_take]
      omega
    exact notMem_of_isBlankOrTab (fun c hc => List.mem_takeWhile_imp hc) ( hprefix.subset hmem)
  refine ⟨hstart, run ++ x ++ s₂.take (min 4 (s₂.takeWhile isBlankOrTab).length), by simp [hx], ?_,
    ?_⟩
  · simp only [List.mem_append, not_or]
    exact ⟨⟨notMem_of_isBlankOrTab hblank, hzero⟩, htrail⟩
  · rw [List.append_assoc, List.append_assoc, ← hsplit]

theorem bulletMark_eq_some (h : bulletMark digits s = some rest) :
    ∃ x, x ≠ [] ∧ 0 ∉ x ∧ s = x ++ rest := by
  have hdigit : ¬ digits.isDigit 0 := by simp [digits.isDigit_iff]
  rcases s with _ | ⟨c, s⟩
  · cases h
  · rw [bulletMark] at h
    split_ifs at h with hstar hdash hnumber
    · obtain ⟨⟨run, rest'⟩, hrun, rfl⟩ := Option.map_eq_some_iff.1 h
      obtain ⟨rfl, hclass⟩ := upTo_eq_some hrun
      refine ⟨c :: run, List.cons_ne_nil _ _, ?_, rfl⟩
      rintro hzero
      rcases List.mem_cons.1 hzero with rfl | hzero
      · omega
      · exact absurd (hclass 0 hzero) (by decide)
    · obtain ⟨⟨run, rest'⟩, hrun, rfl⟩ := Option.map_eq_some_iff.1 h
      obtain ⟨rfl, hclass⟩ := upTo_eq_some hrun
      refine ⟨c :: run, List.cons_ne_nil _ _, ?_, rfl⟩
      rintro hzero
      rcases List.mem_cons.1 hzero with rfl | hzero
      · omega
      · exact absurd (hclass 0 hzero) (by decide)
    · obtain ⟨⟨run, s₁⟩, hrun, hdot⟩ := Option.bind_eq_some_iff.1 h
      obtain ⟨rfl, hclass⟩ := upTo_eq_some hrun
      obtain rfl := one_eq_some.1 hdot
      refine ⟨c :: (run ++ [0x2e]), List.cons_ne_nil _ _, ?_, by simp⟩
      intro hzero
      simp only [List.mem_cons, List.mem_append, List.not_mem_nil, or_false] at hzero
      rcases hzero with rfl | hzero | hzero
      · exact hdigit hnumber
      · exact hdigit (hclass 0 hzero)
      · cases hzero

theorem bullet_eq_some {u : Unit} (h : bullet digits prev s = some (u, rest)) :
    atLineStart prev ∧ ∃ x, x ≠ [] ∧ 0 ∉ x ∧ s = x ++ rest := by
  unfold bullet at h
  split_ifs at h with hstart
  simp only [Option.bind_eq_bind, Option.bind_eq_some_iff, Option.pure_def] at h
  obtain ⟨⟨run, s₁⟩, hrun, s₂, hmark, heq⟩ := h
  obtain ⟨rfl, hblank⟩ := upTo_eq_some hrun
  obtain ⟨x, hx, hzero, rfl⟩ := bulletMark_eq_some hmark
  split_ifs at heq
  have hrest := (Prod.mk.inj (Option.some.inj heq)).2
  have hsplit : s₂ = s₂.takeWhile isBlankOrTab ++ rest := by
    rw [← hrest, List.takeWhile_append_dropWhile]
  refine ⟨hstart, run ++ x ++ s₂.takeWhile isBlankOrTab, by simp [hx], ?_, ?_⟩
  · simp only [List.mem_append, not_or]
    exact ⟨⟨notMem_of_isBlankOrTab hblank, hzero⟩,
      notMem_of_isBlankOrTab fun c hc => List.mem_takeWhile_imp hc⟩
  · rw [List.append_assoc, List.append_assoc, ← hsplit]

theorem table_eq_some {u : Unit} (h : table prev s = some (u, rest)) :
    ∃ x, s = 0x7c :: (x ++ rest) ∧ 0 ∉ 0x7c :: x := by
  simp only [table, Option.bind_eq_bind, Option.bind_eq_some_iff, Option.pure_def] at h
  obtain ⟨s₁, hone, heq⟩ := h
  obtain rfl := one_eq_some.1 hone
  have hrest := (Prod.mk.inj (Option.some.inj heq)).2
  cases htwo : one 0x7c s₁ with
  | none =>
      rw [htwo] at hrest
      exact ⟨[], by rw [← hrest]; rfl, by decide⟩
  | some s₂ =>
      rw [htwo] at hrest
      obtain rfl := one_eq_some.1 htwo
      exact ⟨[0x7c], by rw [← hrest]; rfl, by decide⟩

theorem mem_decimal {n c : ℕ} (h : c ∈ decimal n) : 0x30 ≤ c ∧ c ≤ 0x39 := by
  unfold decimal at h
  split_ifs at h
  · rw [List.mem_singleton.1 h]
    omega
  · obtain ⟨d, hd, rfl⟩ := List.mem_map.1 (List.mem_reverse.1 h)
    have hlt := Nat.digits_lt_base (by omega : 1 < 10) hd
    omega

theorem toInt_decimal (digits : DecimalDigits) (n : ℕ) : digits.toInt (decimal n) = n := by
  unfold decimal
  split_ifs with hn
  · rw [DecimalDigits.toInt, hn]
    simp [digits.value_digit (d := 0) (by omega)]
  · have hfold (ds : List ℕ) (hds : ∀ d ∈ ds, d < 10) :
        digits.toInt (ds.map (· + 0x30)).reverse = Nat.ofDigits 10 ds := by
      induction ds with
      | nil => rfl
      | cons d ds ih =>
          obtain ⟨hd, hds⟩ := List.forall_mem_cons.1 hds
          have ih := ih hds
          rw [DecimalDigits.toInt] at ih ⊢
          rw [List.map_cons, List.reverse_cons, List.foldl_append, ih, Nat.ofDigits_cons]
          simp [digits.value_digit hd, Nat.add_comm]
    rw [hfold _ fun d hd => Nat.digits_lt_base (by omega) hd, Nat.ofDigits_digits]

theorem placeholder_ne_nil (n : ℕ) : placeholder n ≠ [] := List.cons_ne_nil _ _

theorem mem_placeholder {n c : ℕ} (h : c ∈ placeholder n) : c = 0 ∨ 0x30 ≤ c ∧ c ≤ 0x39 := by
  rcases List.mem_cons.1 h with rfl | h
  · exact Or.inl rfl
  · rcases List.mem_append.1 h with h | h
    · exact Or.inr (mem_decimal h)
    · exact Or.inl (List.mem_singleton.1 h)

theorem notMem_placeholder (h : c ≠ 0 ∧ ¬ (0x30 ≤ c ∧ c ≤ 0x39)) (n : ℕ) : c ∉ placeholder n :=
  fun hc => (mem_placeholder hc).elim h.1 h.2

theorem head?_placeholder (h : c ≠ 0) (n : ℕ) : (placeholder n).head? ≠ some c :=
  fun hc => h (Option.some.inj hc).symm

theorem held_placeholder (digits : DecimalDigits) (prev : Option ℕ) (n : ℕ) (s : PyStr) :
    held digits prev (placeholder n ++ s) = some (n, s) := by
  have hdigits : ∀ c ∈ decimal n, digits.isDigit c := by
    intro c hc
    have := mem_decimal hc
    exact (digits.isDigit_iff (by omega)).2 this
  have hzero : ¬ digits.isDigit 0 := by simp [digits.isDigit_iff]
  have htake : (decimal n ++ 0 :: s).takeWhile digits.isDigit = decimal n := by
    rw [List.takeWhile_append_of_pos hdigits, List.takeWhile_cons_of_neg hzero, List.append_nil]
  have hdrop : (decimal n ++ 0 :: s).dropWhile digits.isDigit = 0 :: s := by
    rw [List.dropWhile_append_of_pos hdigits, List.dropWhile_cons_of_neg hzero]
  have hne : decimal n ≠ [] := by
    unfold decimal
    split_ifs with hn
    · exact List.cons_ne_nil _ _
    · rw [ne_eq, List.reverse_eq_nil_iff, List.map_eq_nil_iff]
      exact Nat.digits_ne_nil_iff_ne_zero.2 hn
  have hstart : placeholder n ++ s = 0 :: (decimal n ++ 0 :: s) := by simp [placeholder]
  simp only [hstart, held, one, if_true, Option.bind_eq_bind, Option.bind_some, htake, hdrop,
    if_neg hne, toInt_decimal, Option.pure_def]

/-- A text in which every NUL belongs to a placeholder. -/
def NoNul (toks : List (ℕ ⊕ ℕ)) : Prop := .inl 0 ∉ toks

theorem scanFrom_held (digits : DecimalDigits) {toks : List (ℕ ⊕ ℕ)} (h : NoNul toks)
    (prev : Option ℕ) : scanFrom (held digits) prev 0 (flat placeholder toks) = toks := by
  induction toks generalizing prev with
  | nil => rfl
  | cons tok toks ih =>
      obtain ⟨htok, htoks⟩ := not_or.1 (mt List.mem_cons.2 h)
      rcases tok with c | n
      · have hnone : held digits prev (c :: flat placeholder toks) = none := by
          have hc : c ≠ 0 := fun hc => htok (hc ▸ rfl)
          simp [held, one, hc]
        rw [flat_inl, scanFrom_none hnone, ih htoks]
      · rw [flat_inr, scanFrom_match (placeholder_ne_nil n) (held_placeholder digits prev n _),
          ih htoks]

/-- No match begins within a placeholder. -/
def Opens (prev : Option ℕ) (s : PyStr) : Prop :=
  ∃ d s', s = d :: s' ∧ d ≠ 0 ∧ (0x30 ≤ d ∧ d ≤ 0x39 → atLineStart prev)

/-- A part of a text is rewritten, and the placeholders of `lost` are not kept. -/
def Loses {β : Type*} (lost : β → List ℕ) (b : β) (t o : List (ℕ ⊕ ℕ)) : Prop :=
  NoNul t → (marks t).Perm (marks o ++ lost b) ∧ ∀ c, .inl c ∈ o → .inl c ∈ t ∨ c = 0x20

structure RewritesWhole {β : Type*} (m : Pattern ℕ β) (out : β → PyStr) (lost : β → List ℕ) :
    Prop where
  opens : ∀ {prev s b rest}, m prev s = some (b, rest) → Opens prev s
  rewrites : ∀ {prev toks b rest}, m prev (flat placeholder toks) = some (b, rest) →
    ∃ t toks' o, toks = t ++ toks' ∧ t ≠ [] ∧ rest = flat placeholder toks' ∧ Loses lost b t o ∧
      out b = flat placeholder o

variable {β : Type*} {m : Pattern ℕ β} {out : β → PyStr} {lost : β → List ℕ} {b : β}
  {toks toks' : List (ℕ ⊕ ℕ)}

theorem not_opens_placeholder {n : ℕ} {u v : PyStr} {d : ℕ} (h : placeholder n = u ++ d :: v) :
    ¬ Opens (u.getLast?.or prev) (d :: s) := by
  rintro ⟨d, s', hcons, hd, hstart⟩
  obtain ⟨rfl, -⟩ := List.cons.inj hcons
  have hmem : d ∈ placeholder n := h ▸ List.mem_append_right _ List.mem_cons_self
  rcases List.eq_nil_or_concat u with rfl | ⟨u, c, rfl⟩
  · exact hd (List.cons.inj h).1.symm
  · have hc : c ∈ placeholder n := by simp [h]
    have hprev := hstart ((mem_placeholder hmem).resolve_left hd)
    rw [List.concat_eq_append, List.getLast?_append] at hprev
    have := mem_placeholder hc
    simp [atLineStart] at hprev
    omega

theorem rewrites_loses {bs : List β} (h : Rewrites (Loses lost) bs toks toks')
    (hnul : NoNul toks) : (marks toks).Perm (marks toks' ++ bs.flatMap lost) ∧
      ∀ c, .inl c ∈ toks' → .inl c ∈ toks ∨ c = 0x20 := by
  induction h with
  | nil => exact ⟨.refl _, fun c hc => Or.inl hc⟩
  | @keep tok bs toks toks' _ ih =>
      obtain ⟨hperm, hchars⟩ := ih fun h => hnul (List.mem_cons_of_mem _ h)
      refine ⟨?_, fun c hc => ?_⟩
      · rcases tok with c | n
        · exact hperm
        · exact hperm.cons n
      · rcases List.mem_cons.1 hc with rfl | hc
        · exact Or.inl List.mem_cons_self
        · exact (hchars c hc).imp_left (List.mem_cons_of_mem _)
  | @replace b t o hloses bs toks toks' _ ih =>
      obtain ⟨hperm, hchars⟩ := ih fun h => hnul (List.mem_append_right _ h)
      obtain ⟨hperm', hchars'⟩ := hloses fun h => hnul (List.mem_append_left _ h)
      refine ⟨?_, fun c hc => ?_⟩
      · rw [List.perm_iff_count] at hperm hperm' ⊢
        intro n
        have hn := hperm n
        have hn' := hperm' n
        simp only [marks_append, List.flatMap_cons, List.count_append] at hn hn' ⊢
        omega
      · rcases List.mem_append.1 hc with hc | hc
        · exact (hchars' c hc).imp_left (List.mem_append_left _)
        · exact (hchars c hc).imp_left (List.mem_append_right _)

/-- One text comes from another, and only the placeholders of `lost` are gone. -/
structure KeptBut (lost : List ℕ) (toks toks' : List (ℕ ⊕ ℕ)) : Prop where
  noNul : NoNul toks'
  marks : (marks toks).Perm (marks toks' ++ lost)
  chars : ∀ c, .inl c ∈ toks' → .inl c ∈ toks ∨ c = 0x20

theorem KeptBut.trans {ns ns' : List ℕ} {toks'' : List (ℕ ⊕ ℕ)} (h : KeptBut ns toks toks')
    (h' : KeptBut ns' toks' toks'') : KeptBut (ns' ++ ns) toks toks'' where
  noNul := h'.noNul
  marks := by
    rw [← List.append_assoc]
    exact h.marks.trans (h'.marks.append_right ns)
  chars c hc := (h'.chars c hc).elim (h.chars c) Or.inr

theorem RewritesWhole.exists_sub (h : RewritesWhole m out lost) (hnul : NoNul toks) :
    ∃ toks', sub m out (flat placeholder toks) = flat placeholder toks' ∧
      KeptBut ((captures (scan m (flat placeholder toks))).flatMap lost) toks toks' := by
  have hidle : ∀ prev n s u d v, placeholder n = u ++ d :: v →
      m (u.getLast?.or prev) (d :: (v ++ s)) = none := by
    intro prev n s u d v hsplit
    cases hmatch : m (u.getLast?.or prev) (d :: (v ++ s)) with
    | none => rfl
    | some found => exact absurd (h.opens hmatch) (not_opens_placeholder hsplit)
  obtain ⟨toks', hwrite, hrewrites⟩ := exists_write_flat placeholder_ne_nil hidle
    (fun _ _ _ _ hmatch => h.rewrites hmatch) none toks
  obtain ⟨hperm, hchars⟩ := rewrites_loses hrewrites hnul
  refine ⟨toks', hwrite, fun hmem => ?_, hperm, hchars⟩
  rcases hchars 0 hmem with hmem | hspace
  · exact hnul hmem
  · cases hspace

theorem RewritesWhole.exists_kept (h : RewritesWhole m out fun _ => []) (hnul : NoNul toks) :
    ∃ toks', sub m out (flat placeholder toks) = flat placeholder toks' ∧
      KeptBut [] toks toks' := by
  obtain ⟨toks', hwrite, hkept⟩ := h.exists_sub hnul
  have hnone : (captures (scan m (flat placeholder toks))).flatMap (fun _ => ([] : List ℕ)) = [] :=
    List.flatMap_eq_nil_iff.2 fun _ _ => rfl
  rw [hnone] at hkept
  exact ⟨toks', hwrite, hkept⟩

theorem rewritesWhole_of_plain (hopens : ∀ {prev s b rest}, m prev s = some (b, rest) →
      Opens prev s) (hplain : ∀ {prev s b rest}, m prev s = some (b, rest) →
      ∃ x, x ≠ [] ∧ 0 ∉ x ∧ s = x ++ rest) (hout : ∀ b, ∀ c ∈ out b, c = 0x20) :
    RewritesWhole m out fun _ => [] where
  opens := hopens
  rewrites {prev toks b rest} h := by
    obtain ⟨x, hx, hzero, heq⟩ := hplain h
    have hhead : ∀ d ∈ x, ∀ n, (placeholder n).head? ≠ some d := fun d hd =>
      head?_placeholder fun h => hzero (h ▸ hd)
    obtain ⟨toks', rfl, hrest⟩ := exists_plain placeholder_ne_nil hhead heq
    refine ⟨x.map .inl, toks', (out b).map .inl, rfl, by simpa using hx, hrest.symm, ?_,
      (flat_map_inl _).symm⟩
    refine fun _ => ⟨by simp, fun c hc => Or.inr (hout b c ?_)⟩
    simpa using hc

theorem opens_of_delimiter (h : c ≠ 0 ∧ ¬ (0x30 ≤ c ∧ c ≤ 0x39)) : Opens prev (c :: s) :=
  ⟨c, s, rfl, h.1, fun hdigit => absurd hdigit h.2⟩

theorem opens_of_start (hstart : atLineStart prev) {x : PyStr} (hx : x ≠ []) (hzero : 0 ∉ x) :
    Opens prev (x ++ s) := by
  obtain ⟨d, x, rfl⟩ := List.exists_cons_of_ne_nil hx
  exact ⟨d, x ++ s, rfl, fun h => hzero (h ▸ List.mem_cons_self), fun _ => hstart⟩

theorem exists_opening (hc : c ≠ 0) (h : flat placeholder toks = c :: s) :
    ∃ toks', toks = .inl c :: toks' ∧ flat placeholder toks' = s :=
  exists_tail placeholder_ne_nil (head?_placeholder hc) h

theorem exists_delimiter (hc : c ≠ 0 ∧ ¬ (0x30 ≤ c ∧ c ≤ 0x39)) {x y : PyStr}
    (h : flat placeholder toks = x ++ c :: y) : ∃ t t', toks = t ++ .inl c :: t' ∧
      flat placeholder t = x ∧ flat placeholder t' = y := exists_cut (notMem_placeholder hc) h

theorem monospace_whole : RewritesWhole monospace id fun _ => [] where
  opens h := by
    rw [monospace_eq_some h]
    exact opens_of_delimiter (by omega)
  rewrites h := by
    obtain ⟨_, rfl, hsecond⟩ := exists_opening (by omega) (monospace_eq_some h)
    obtain ⟨_, rfl, hbody⟩ := exists_opening (by omega) hsecond
    obtain ⟨t, _, rfl, rfl, hclose⟩ := exists_delimiter (by omega) hbody
    obtain ⟨toks', rfl, rfl⟩ := exists_opening (by omega) hclose
    refine ⟨.inl 0x7b :: .inl 0x7b :: (t ++ [.inl 0x7d, .inl 0x7d]), toks', t, by simp, by simp,
      rfl, fun _ => ⟨by simp, fun c hc => Or.inl (by simp [hc])⟩, rfl⟩

theorem link_whole : RewritesWhole link (fun found => found.1 ++ 0x20 :: found.2) fun _ => [] where
  opens h := by
    rw [link_eq_some h]
    exact opens_of_delimiter (by omega)
  rewrites {prev toks found rest} h := by
    obtain ⟨label, target⟩ := found
    obtain ⟨_, rfl, hlabel⟩ := exists_opening (by omega) (link_eq_some h)
    obtain ⟨t, _, rfl, rfl, htarget⟩ := exists_delimiter (by omega) hlabel
    obtain ⟨t', toks', rfl, rfl, rfl⟩ := exists_delimiter (by omega) htarget
    refine ⟨.inl 0x5b :: (t ++ .inl 0x7c :: (t' ++ [.inl 0x5d])), toks', t ++ .inl 0x20 :: t',
      by simp, by simp, rfl, fun _ => ⟨by simp, fun c hc => ?_⟩, by simp⟩
    simp only [List.mem_append, List.mem_cons, Sum.inl.injEq] at hc
    rcases hc with hc | rfl | hc
    · exact Or.inl (by simp [hc])
    · exact Or.inr rfl
    · exact Or.inl (by simp [hc])

theorem bareLink_whole : RewritesWhole bareLink id fun _ => [] where
  opens h := by
    rw [bareLink_eq_some h]
    exact opens_of_delimiter (by omega)
  rewrites h := by
    obtain ⟨_, rfl, htarget⟩ := exists_opening (by omega) (bareLink_eq_some h)
    obtain ⟨t, toks', rfl, rfl, rfl⟩ := exists_delimiter (by omega) htarget
    refine ⟨.inl 0x5b :: (t ++ [.inl 0x5d]), toks', t, by simp, by simp, rfl,
      fun _ => ⟨by simp, fun c hc => Or.inl (by simp [hc])⟩, rfl⟩

/-- The blocks whose placeholders stand in a text. -/
def placed (digits : DecimalDigits) (text : PyStr) : List ℕ := captures (scan (held digits) text)

theorem placed_flat (digits : DecimalDigits) (h : NoNul toks) :
    placed digits (flat placeholder toks) = marks toks :=
  congrArg captures (scanFrom_held digits h none)

theorem macroMarker_whole (digits : DecimalDigits) :
    RewritesWhole macroMarker (fun _ => [0x20]) (placed digits) where
  opens h := by
    obtain ⟨name, -, rfl | ⟨-, rfl⟩⟩ := macroMarker_eq_some h
    · exact opens_of_delimiter (by omega)
    · exact opens_of_delimiter (by omega)
  rewrites {prev toks param rest} h := by
    obtain ⟨name, hname, hparam⟩ := macroMarker_eq_some h
    have hhead : ∀ d ∈ name, ∀ n, (placeholder n).head? ≠ some d := fun d hd =>
      head?_placeholder fun h => hname (h ▸ hd)
    have hspace : flat placeholder [.inl 0x20] = [0x20] := rfl
    rcases hparam with heq | ⟨rfl, heq⟩
    · obtain ⟨_, rfl, hrest⟩ := exists_opening (by omega) heq
      obtain ⟨_, rfl, hcolon⟩ := exists_plain placeholder_ne_nil hhead hrest
      obtain ⟨_, rfl, hclose⟩ := exists_opening (by omega) hcolon
      obtain ⟨t, toks', rfl, rfl, rfl⟩ := exists_delimiter (by omega) hclose
      refine ⟨.inl 0x7b :: (name.map .inl ++ .inl 0x3a :: (t ++ [.inl 0x7d])), toks', [.inl 0x20],
        by simp, by simp, rfl, fun hnul => ⟨?_, ?_⟩, hspace.symm⟩
      · have ht : NoNul t := fun hzero => hnul (by simp [hzero])
        rw [placed_flat digits ht]
        simp
      · exact fun c hc => Or.inr (by simpa using hc)
    · obtain ⟨_, rfl, hrest⟩ := exists_opening (by omega) heq
      obtain ⟨_, rfl, hclose⟩ := exists_plain placeholder_ne_nil hhead hrest
      obtain ⟨toks', rfl, rfl⟩ := exists_opening (by omega) hclose
      refine ⟨.inl 0x7b :: (name.map .inl ++ [.inl 0x7d]), toks', [.inl 0x20], by simp, by simp,
        rfl, fun _ => ⟨?_, ?_⟩, hspace.symm⟩
      · simp [placed, scan, captures]
      · exact fun c hc => Or.inr (by simpa using hc)

theorem linePrefix_whole : RewritesWhole linePrefix (fun _ => []) fun _ => [] := by
  refine rewritesWhole_of_plain ?_ ?_ (fun _ c hc => absurd hc List.not_mem_nil)
  · intro prev s u rest h
    obtain ⟨hstart, x, hx, hzero, rfl⟩ := linePrefix_eq_some h
    exact opens_of_start hstart hx hzero
  · intro prev s u rest h
    exact (linePrefix_eq_some h).2

theorem bullet_whole (digits : DecimalDigits) :
    RewritesWhole (bullet digits) (fun _ => []) fun _ => [] := by
  refine rewritesWhole_of_plain ?_ ?_ (fun _ c hc => absurd hc List.not_mem_nil)
  · intro prev s u rest h
    obtain ⟨hstart, x, hx, hzero, rfl⟩ := bullet_eq_some h
    exact opens_of_start hstart hx hzero
  · intro prev s u rest h
    exact (bullet_eq_some h).2

theorem table_whole : RewritesWhole table (fun _ => [0x20]) fun _ => [] := by
  refine rewritesWhole_of_plain ?_ ?_ (fun _ c hc => List.mem_singleton.1 hc)
  · intro prev s u rest h
    obtain ⟨x, rfl, -⟩ := table_eq_some h
    exact opens_of_delimiter (by omega)
  · intro prev s u rest h
    obtain ⟨x, rfl, hzero⟩ := table_eq_some h
    exact ⟨0x7c :: x, List.cons_ne_nil _ _, hzero, rfl⟩

theorem ignoringCase_eq_some {literal : PyStr} (h : ignoringCase literal s = some rest) :
    ∃ x, s = x ++ rest := by
  unfold ignoringCase at h
  split_ifs at h
  rw [← Option.some.inj h]
  exact ⟨s.take literal.length, (List.take_append_drop _ _).symm⟩

theorem heldBlockOf_eq_some {keyword body : PyStr} (h : heldBlockOf keyword s = some (body, rest)) :
    ∃ x y, s = (0x7b :: x ++ body ++ y) ++ rest := by
  simp only [heldBlockOf, Option.bind_eq_bind, Option.bind_eq_some_iff] at h
  obtain ⟨s₁, hopen, s₂, hkeyword, ⟨param, s₃⟩, hparam, hbody⟩ := h
  obtain rfl := one_eq_some.1 hopen
  obtain ⟨x, rfl⟩ := ignoringCase_eq_some hkeyword
  obtain ⟨x', rfl⟩ : ∃ x', s₂ = x' ++ s₃ := by
    rcases parameter_eq_some hparam with rfl | ⟨-, rfl⟩
    · exact ⟨0x3a :: (param ++ [0x7d]), by simp⟩
    · exact ⟨[0x7d], rfl⟩
  obtain ⟨more, rfl, hclosing⟩ := lazily_eq_some hbody
  simp only [closing, Option.bind_eq_bind, Option.bind_eq_some_iff] at hclosing
  obtain ⟨s₄, hbrace, s₅, hagain, hclose⟩ := hclosing
  obtain rfl := one_eq_some.1 hbrace
  obtain ⟨y, rfl⟩ := ignoringCase_eq_some hagain
  obtain rfl := one_eq_some.1 hclose
  exact ⟨x ++ x', 0x7b :: (y ++ [0x7d]), by simp⟩

theorem heldBlock_eq_some {body : PyStr} (h : heldBlock prev s = some (body, rest)) :
    ∃ x, x ≠ [] ∧ s = x ++ rest ∧ body.Sublist x := by
  obtain hcode | hnoformat : heldBlockOf (pyStr "code") s = some (body, rest) ∨
      heldBlockOf (pyStr "noformat") s = some (body, rest) := by
    rcases Option.or_eq_some_iff.1 h with hcode | ⟨-, hnoformat⟩
    · exact Or.inl hcode
    · exact Or.inr hnoformat
  all_goals
    obtain ⟨x, y, rfl⟩ := heldBlockOf_eq_some ‹_›
    refine ⟨0x7b :: x ++ body ++ y, by simp, rfl, ?_⟩
    exact (List.sublist_append_right _ _).trans (List.sublist_append_left _ _)

theorem write_blocks_sublist (value : PyStr) :
    (write id (blocks value)).Sublist (value.filter (· ≠ 0)) :=
  write_sublist (fun _ _ _ _ h => heldBlock_eq_some h) none _

def bodyOf (value : PyStr) (n : ℕ) : PyStr := (heldBodies value)[n]?.getD []

theorem marks_number (n : ℕ) (scanned : List (ℕ ⊕ PyStr)) :
    marks (number n scanned) = List.range' n (captures scanned).length := by
  induction scanned generalizing n with
  | nil => rfl
  | cons tok scanned ih =>
      rcases tok with c | body
      · exact ih n
      · rw [number, marks_inr, ih]
        rfl

theorem flat_number {n : ℕ} {scanned : List (ℕ ⊕ PyStr)} {bodies : List PyStr}
    (h : captures scanned = bodies.drop n) :
    flat (fun i => bodies[i]?.getD []) (number n scanned) = write id scanned := by
  induction scanned generalizing n with
  | nil => rfl
  | cons tok scanned ih =>
      rcases tok with c | body
      · rw [number, flat_inl, ih h]
        rfl
      · have hdrop : bodies.drop n = body :: captures scanned := h.symm
        have hbody : bodies[n]? = some body := by
          rw [← List.head?_drop, hdrop, List.head?_cons]
        have hrest : captures scanned = bodies.drop (n + 1) := by
          rw [← List.tail_drop, hdrop, List.tail_cons]
        rw [number, flat_inr, ih hrest, hbody]
        rfl

def tokens (value : PyStr) : List (ℕ ⊕ ℕ) := number 0 (blocks value)

theorem marks_tokens (value : PyStr) :
    marks (tokens value) = List.range' 0 (heldBodies value).length := marks_number 0 _

theorem flat_tokens_sublist (value : PyStr) :
    (flat (bodyOf value) (tokens value)).Sublist (value.filter (· ≠ 0)) := by
  have hflat : flat (bodyOf value) (tokens value) = write id (blocks value) :=
    flat_number List.drop_zero.symm
  rw [hflat]
  exact write_blocks_sublist value

theorem notMem_flat_tokens (value : PyStr) : 0 ∉ flat (bodyOf value) (tokens value) := fun h =>
  absurd ((flat_tokens_sublist value).subset h) (by simp)

theorem noNul_tokens (value : PyStr) : NoNul (tokens value) := fun h =>
  notMem_flat_tokens value (mem_flat_of_mem h (by simp))

/-- The blocks whose placeholders stand in the parameters of the macro markers. -/
def swallowedNumbers (digits : DecimalDigits) (value : PyStr) : List ℕ :=
  (captures (scan macroMarker (beforeMacros value))).flatMap (placed digits)

/-- The bodies that are deleted with a macro marker. -/
def swallowed (digits : DecimalDigits) (value : PyStr) : List PyStr :=
  (swallowedNumbers digits value).map (bodyOf value)

def NoneSwallowed (digits : DecimalDigits) (value : PyStr) : Prop :=
  ∀ body ∈ swallowed digits value, blank body

/-- Every body stands in the result, up to blanks, and no NUL does. -/
def KeepsCode (digits : DecimalDigits) (value : PyStr) : Prop :=
  (∀ body ∈ heldBodies value, squeezed body <:+: squeezed (wikiToText digits value)) ∧
    0 ∉ wikiToText digits value

/-- Each body has a character that stands nowhere else in the field. -/
def BodiesTell (value : PyStr) : Prop :=
  ∀ body ∈ heldBodies value, ¬ blank body → ∃ c ∈ body, ¬ spaceCode c ∧ value.count c = 1

theorem exists_flatten (digits : DecimalDigits) (value : PyStr) :
    ∃ toks, flatten digits value = flat placeholder toks ∧
      KeptBut (swallowedNumbers digits value) (tokens value) toks := by
  obtain ⟨t₁, ht₁, h₁⟩ := monospace_whole.exists_kept (noNul_tokens value)
  obtain ⟨t₂, ht₂, h₂⟩ := link_whole.exists_kept h₁.noNul
  obtain ⟨t₃, ht₃, h₃⟩ := bareLink_whole.exists_kept h₂.noNul
  obtain ⟨t₄, ht₄, h₄⟩ := (macroMarker_whole digits).exists_sub h₃.noNul
  obtain ⟨t₅, ht₅, h₅⟩ := linePrefix_whole.exists_kept h₄.noNul
  obtain ⟨t₆, ht₆, h₆⟩ := (bullet_whole digits).exists_kept h₅.noNul
  obtain ⟨t₇, ht₇, h₇⟩ := table_whole.exists_kept h₆.noNul
  have hbefore : beforeMacros value = flat placeholder t₃ := by
    rw [beforeMacros, withPlaceholders, ← tokens, ht₁, ht₂, ht₃]
  refine ⟨t₇, ?_, ?_⟩
  · rw [flatten, hbefore, ht₄, ht₅, ht₆, ht₇]
  · have hkept := (((((h₁.trans h₂).trans h₃).trans h₄).trans h₅).trans h₆).trans h₇
    simpa [swallowedNumbers, hbefore] using hkept

/-- The bodies stand in the result where their placeholders do. -/
theorem exists_wikiToText (digits : DecimalDigits) (value : PyStr) :
    ∃ toks, wikiToText digits value = tidy (flat (bodyOf value) toks) ∧
      KeptBut (swallowedNumbers digits value) (tokens value) toks := by
  obtain ⟨toks, hflatten, hkept⟩ := exists_flatten digits value
  refine ⟨toks, ?_, hkept⟩
  have hsub : sub (held digits) (bodyOf value) (flatten digits value) =
      flat (bodyOf value) toks := by
    rw [hflatten, sub, scan, scanFrom_held digits hkept.noNul]
    rfl
  unfold wikiToText
  split_ifs with hvalue
  · have hempty : flatten digits value = [] := by
      simp [hvalue, flatten, beforeMacros, withPlaceholders, blocks, number, sub, scan, write]
    rw [← hsub, hempty]
    rfl
  · exact congrArg tidy hsub

theorem mem_swallowed {digits : DecimalDigits} {value body : PyStr} :
    body ∈ swallowed digits value ↔
      ∃ n ∈ swallowedNumbers digits value, bodyOf value n = body := List.mem_map

theorem exists_number_of_mem_heldBodies {value body : PyStr} (h : body ∈ heldBodies value) :
    ∃ n, .inr n ∈ tokens value ∧ bodyOf value n = body := by
  obtain ⟨n, hn, hbody⟩ := List.getElem_of_mem h
  refine ⟨n, mem_marks.1 ?_, ?_⟩
  · rw [marks_tokens, List.mem_range'_1]
    omega
  · rw [bodyOf, List.getElem?_eq_getElem hn, Option.getD_some, hbody]

theorem bodyOf_mem_heldBodies {value : PyStr} {n : ℕ} (h : .inr n ∈ tokens value) :
    bodyOf value n ∈ heldBodies value := by
  have hmark := mem_marks.2 h
  rw [marks_tokens, List.mem_range'_1] at hmark
  have hn : n < (heldBodies value).length := by omega
  rw [bodyOf, List.getElem?_eq_getElem hn]
  exact List.getElem_mem hn

theorem zero_notMem_wikiToText (digits : DecimalDigits) (value : PyStr) :
    0 ∉ wikiToText digits value := by
  obtain ⟨toks, htext, hkept⟩ := exists_wikiToText digits value
  rw [htext, mem_tidy (by decide)]
  intro hzero
  rcases mem_flat hzero with hzero | ⟨n, hn, hzero⟩
  · exact hkept.noNul hzero
  · have hmark : n ∈ marks (tokens value) :=
      hkept.marks.mem_iff.2 (List.mem_append_left _ (mem_marks.2 hn))
    exact notMem_flat_tokens value ((infix_flat (mem_marks.1 hmark)).subset hzero)

theorem keepsCode_of_noneSwallowed {digits : DecimalDigits} {value : PyStr}
    (h : NoneSwallowed digits value) : KeepsCode digits value := by
  obtain ⟨toks, htext, hkept⟩ := exists_wikiToText digits value
  refine ⟨fun body hbody => ?_, zero_notMem_wikiToText digits value⟩
  obtain ⟨n, hn, rfl⟩ := exists_number_of_mem_heldBodies hbody
  rcases List.mem_append.1 (hkept.marks.mem_iff.1 (mem_marks.2 hn)) with hkeep | hlost
  · obtain ⟨x, y, hxy⟩ := (infix_flat (mem_marks.1 hkeep) :
      bodyOf value n <:+: flat (bodyOf value) toks)
    rw [htext, squeezed_tidy, ← hxy]
    exact squeeze_infix x _ y
  · rw [squeezed_eq_nil_of_blank (h _ (mem_swallowed.2 ⟨n, hlost, rfl⟩))]
    exact List.nil_infix

theorem nodup_numbers {digits : DecimalDigits} {value : PyStr}
    (hkept : KeptBut (swallowedNumbers digits value) (tokens value) toks) :
    (marks toks ++ swallowedNumbers digits value).Nodup :=
  hkept.marks.nodup_iff.1 (marks_tokens value ▸ List.nodup_range')

/-- A body that a macro marker takes with it is in the result nowhere else. -/
theorem noneSwallowed_of_keepsCode {digits : DecimalDigits} {value : PyStr}
    (htell : BodiesTell value) (h : KeepsCode digits value) : NoneSwallowed digits value := by
  obtain ⟨toks, htext, hkept⟩ := exists_wikiToText digits value
  intro body hbody
  obtain ⟨n, hlost, rfl⟩ := mem_swallowed.1 hbody
  have hmark : .inr n ∈ tokens value :=
    mem_marks.1 (hkept.marks.mem_iff.2 (List.mem_append_right _ hlost))
  by_contra hblank
  obtain ⟨c, hc, hspace, hcount⟩ := htell _ (bodyOf_mem_heldBodies hmark) hblank
  have hone : (flat (bodyOf value) (tokens value)).count c ≤ 1 :=
    ((flat_tokens_sublist value).trans List.filter_sublist).count_le c |>.trans hcount.le
  have hbox (i : ℕ) (hi : c ∈ bodyOf value i) : c ∈ flat (bodyOf value) [.inr i] := by
    simpa using hi
  -- it is in the result, so it comes from a block that is kept or from outside the blocks
  have hresult : c ∈ flat (bodyOf value) toks := by
    have hsqueezed : c ∈ squeezed (wikiToText digits value) :=
      (h.1 _ (bodyOf_mem_heldBodies hmark)).subset ((mem_squeezed hspace).2 hc)
    rwa [mem_squeezed hspace, htext, mem_tidy hspace] at hsqueezed
  rcases mem_flat hresult with hchar | ⟨m, hm, hcm⟩
  · rcases hkept.chars c hchar with hchar | rfl
    · have heq := eq_of_count_flat_le_one hone hmark hchar (hbox n hc) (by simp)
      cases heq
    · exact hspace (by decide)
  · have hmark' : .inr m ∈ tokens value :=
      mem_marks.1 (hkept.marks.mem_iff.2 (List.mem_append_left _ (mem_marks.2 hm)))
    have heq := eq_of_count_flat_le_one hone hmark hmark' (hbox n hc) (hbox m hcm)
    obtain rfl := Sum.inr.inj heq
    exact (List.nodup_append.1 (nodup_numbers hkept)).2.2 _ (mem_marks.2 hm) _ hlost rfl

def putBack (digits : DecimalDigits) (value : PyStr) : List ℕ :=
  placed digits (flatten digits value)

theorem mem_putBack_iff {digits : DecimalDigits} {value : PyStr} {n : ℕ}
    (hn : n < (heldBodies value).length) :
    n ∈ putBack digits value ↔ n ∉ swallowedNumbers digits value := by
  obtain ⟨toks, hflatten, hkept⟩ := exists_flatten digits value
  have hmark : n ∈ marks toks ++ swallowedNumbers digits value := by
    rw [← hkept.marks.mem_iff, marks_tokens, List.mem_range'_1]
    omega
  rw [putBack, hflatten, placed_flat digits hkept.noNul]
  refine ⟨fun hkeep hlost => ?_, fun hlost => (List.mem_append.1 hmark).resolve_right hlost⟩
  exact (List.nodup_append.1 (nodup_numbers hkept)).2.2 n hkeep n hlost rfl

/-- The code of a field is kept where no macro marker takes a block with it, and, up to a body
that stands in the field once more, only there: each block is put back but for these. -/
theorem code_kept_iff (digits : DecimalDigits) (value : PyStr) :
    (NoneSwallowed digits value → KeepsCode digits value) ∧
      (BodiesTell value → (KeepsCode digits value ↔ NoneSwallowed digits value)) ∧
      ∀ n < (heldBodies value).length,
        n ∈ putBack digits value ↔ n ∉ swallowedNumbers digits value :=
  ⟨keepsCode_of_noneSwallowed, fun htell =>
    ⟨noneSwallowed_of_keepsCode htell, keepsCode_of_noneSwallowed⟩, fun _ => mem_putBack_iff⟩

/-- The title of a panel is a block of code, and the marker of the panel is deleted with it. -/
theorem panel_title_swallows_code :
    let text := pyStr "\x7bpanel:title=\x7bcode\x7dhunter2\x7bcode\x7d\x7d"
    heldBodies text = [pyStr "hunter2"] ∧ BodiesTell text ∧ wikiToText asciiDigits text = [] ∧
      ¬ KeepsCode asciiDigits text := by
  unfold BodiesTell KeepsCode
  decide

end IcebergSST.Wiki
