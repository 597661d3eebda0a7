import IcebergSST.CheckTokens

/-!
# Respelling a refused pattern

A respelling changes the tokens where it stands, and no other, but for what a brace that is
open before it reads.
-/

namespace IcebergSST.Backtracking

open Brackets

variable {digits : DecimalDigits} {m : Mode} {c d i j : ℕ} {s x y z p : PyStr}

/-- A comma, and only blanks after the first one. -/
def endsVariably : PyStr → Bool
  | [] => false
  | c :: s => if c = 0x2c then blank s else endsVariably s

/-- No number is written with it. -/
def Unnumeral (d : ℕ) : Prop := d = 0x28 ∨ d = 0x29 ∨ d = 0x7b ∨ d = 0x3f

theorem Unnumeral.not_space (h : Unnumeral d) : ¬ spaceCode d := by
  rcases h with rfl | rfl | rfl | rfl <;> decide

theorem Unnumeral.not_intSpace (h : Unnumeral d) : ¬ intSpace d := by
  rcases h with rfl | rfl | rfl | rfl <;> decide

theorem Unnumeral.not_digit (h : Unnumeral d) : ¬ digits.isDigit d := by
  rw [digits.isDigit_iff (by rcases h with rfl | rfl | rfl | rfl <;> omega)]
  rcases h with rfl | rfl | rfl | rfl <;> omega

theorem mem_dropWhile_iff {skips : ℕ → Bool} (h : ¬ skips c) : c ∈ s.dropWhile skips ↔ c ∈ s := by
  conv_rhs => rw [← List.takeWhile_append_dropWhile (p := skips) (l := s), List.mem_append]
  exact (or_iff_right fun htake => h (List.mem_takeWhile_imp htake)).symm

theorem mem_trim {skips : ℕ → Bool} (h : ¬ skips c) :
    c ∈ (s.dropWhile skips).rdropWhile skips ↔ c ∈ s := by
  rw [List.rdropWhile, List.mem_reverse, mem_dropWhile_iff h, List.mem_reverse,
    mem_dropWhile_iff h]

theorem strip_eq_nil_iff : PyStr.strip s = [] ↔ blank s := by
  have hblank : squeezed s = [] ↔ blank s := by
    rw [squeezed, Squeeze.squeeze_eq_nil, blank, List.all_eq_true]
    rfl
  constructor
  · intro h
    rw [← hblank, ← squeezed_strip, h]
    rfl
  · intro h
    have hdrop : s.dropWhile spaceCode = [] := by
      rw [List.dropWhile_eq_nil_iff]
      exact List.all_eq_true.1 h
    rw [PyStr.strip, hdrop]
    rfl

theorem mem_of_mem_intercalate {groups : List PyStr} (h : c ∈ [d].intercalate groups) :
    c = d ∨ ∃ group ∈ groups, c ∈ group := by
  induction groups with
  | nil => cases h
  | cons group groups ih =>
      cases groups with
      | nil => exact Or.inr ⟨group, by simp, by simpa using h⟩
      | cons next groups =>
          rw [List.intercalate_cons_cons, List.mem_append, List.mem_append,
            List.mem_singleton] at h
          rcases h with (h | rfl) | h
          · exact Or.inr ⟨group, by simp, h⟩
          · exact Or.inl rfl
          · rcases ih h with rfl | ⟨group', hgroup', hc⟩
            · exact Or.inl rfl
            · exact Or.inr ⟨group', List.mem_cons_of_mem _ hgroup', hc⟩

theorem pyNat_eq_none (hd : Unnumeral d) (h : d ∈ s) : pyNat digits s = none := by
  unfold pyNat
  dsimp only
  refine if_neg fun hgroups => ?_
  have hjoined : [0x5f].intercalate (s.splitOn 0x5f) = s := List.intercalate_splitOn 0x5f
  rw [← hjoined] at h
  rcases mem_of_mem_intercalate h with rfl | ⟨group, hgroup, hmem⟩
  · rcases hd with hd | hd | hd | hd <;> cases hd
  · have hall := List.all_eq_true.1 hgroups.1 group hgroup
    simp only [decide_eq_true_eq] at hall
    exact hd.not_digit (List.all_eq_true.1 hall.2 d hmem)

theorem pyInt_eq_none (hd : Unnumeral d) (h : d ∈ s) : pyInt digits s = none := by
  have hmem := (mem_trim hd.not_intSpace).2 h
  unfold pyInt
  split
  · rfl
  · rename_i e rest heq
    rw [heq] at hmem
    have hrest (he : d ≠ e) : d ∈ rest := (List.mem_cons.1 hmem).resolve_left he
    split_ifs with hminus hplus
    · rw [pyNat_eq_none hd (hrest (by rintro rfl; rcases hd with h | h | h | h <;> omega))]
      rfl
    · rw [pyNat_eq_none hd (hrest (by rintro rfl; rcases hd with h | h | h | h <;> omega))]
      rfl
    · rw [pyNat_eq_none hd hmem]
      rfl

theorem endsVariably_of_comma {low high : PyStr} (h : 0x2c ∉ low) :
    endsVariably (low ++ 0x2c :: high) = blank high := by
  induction low with
  | nil => rfl
  | cons c low ih =>
      obtain ⟨hc, hlow⟩ := not_or.1 (mt List.mem_cons.2 h)
      rw [List.cons_append, endsVariably, if_neg (Ne.symm hc), ih hlow]

theorem endsVariably_of_notMem (h : 0x2c ∉ s) : endsVariably s = false := by
  induction s with
  | nil => rfl
  | cons c s ih =>
      obtain ⟨hc, hs⟩ := not_or.1 (mt List.mem_cons.2 h)
      rw [endsVariably, if_neg (Ne.symm hc), ih hs]

/-- Around what is no number, only an empty upper bound makes a repetition vary. -/
theorem isVariableRepetition_eq (hd : Unnumeral d) (h : d ∈ s) :
    isVariableRepetition digits s = endsVariably s := by
  unfold isVariableRepetition
  by_cases hcomma : 0x2c ∈ s
  · rw [if_neg (not_not.2 hcomma)]
    have hlow : 0x2c ∉ s.takeWhile (· ≠ 0x2c) := fun hmem => by
      simpa using List.mem_takeWhile_imp hmem
    obtain ⟨high, hhigh⟩ : ∃ high, s.dropWhile (· ≠ 0x2c) = 0x2c :: high := by
      have hne : s.dropWhile (· ≠ 0x2c) ≠ [] := fun hnil => by
        simpa using List.dropWhile_eq_nil_iff.1 hnil _ hcomma
      obtain ⟨e, high, hdrop⟩ := List.exists_cons_of_ne_nil hne
      have he := List.head_dropWhile_not _ hne
      simp only [hdrop, List.head_cons, decide_eq_false_iff_not, not_not] at he
      exact ⟨high, by rw [hdrop, he]⟩
    have hsplit : s = s.takeWhile (· ≠ 0x2c) ++ 0x2c :: high := by
      rw [← hhigh, List.takeWhile_append_dropWhile]
    have hends : endsVariably s = blank high := by
      conv_lhs => rw [hsplit]
      exact endsVariably_of_comma hlow
    simp only [hhigh, List.drop_succ_cons, List.drop_zero, hends]
    by_cases hblank : blank high
    · rw [if_pos (strip_eq_nil_iff.2 hblank), hblank]
    · rw [if_neg (mt strip_eq_nil_iff.1 hblank)]
      rw [hsplit, List.mem_append, List.mem_cons] at h
      have hlowNone (hmem : d ∈ s.takeWhile (· ≠ 0x2c)) :
          (if PyStr.strip (s.takeWhile (· ≠ 0x2c)) = [] then some 0
            else pyInt digits (PyStr.strip (s.takeWhile (· ≠ 0x2c)))) = none := by
        have hstrip : d ∈ PyStr.strip _ := (mem_trim hd.not_space).2 hmem
        rw [if_neg (List.ne_nil_of_mem hstrip), pyInt_eq_none hd hstrip]
      rw [Bool.not_eq_true] at hblank
      rw [hblank]
      rcases h with hmem | rfl | hmem
      · rw [hlowNone hmem]
      · rcases hd with hd | hd | hd | hd <;> cases hd
      · rw [pyInt_eq_none hd hmem]
        split
        · rename_i hnone
          cases hnone
        · rfl
  · rw [if_pos hcomma, endsVariably_of_notMem hcomma]

theorem endsVariably_append (hspace : ¬ spaceCode d) (hcomma : d ≠ 0x2c) (x y : PyStr) :
    endsVariably (x ++ d :: y) = (decide (0x2c ∉ x) && endsVariably y) := by
  induction x with
  | nil => simp [endsVariably, hcomma]
  | cons c x ih =>
      rw [List.cons_append, endsVariably]
      split_ifs with hc
      · have hblank : blank (x ++ d :: y) = false := by
          refine Bool.eq_false_iff.2 fun hall => hspace ?_
          exact List.all_eq_true.1 hall d (by simp)
        simp [hblank, hc]
      · rw [ih]
        simp [Ne.symm hc]

theorem braceVaries_of_mem (h : 0x7d ∈ x) (y z : PyStr) :
    braceVaries digits (x ++ y) = braceVaries digits (x ++ z) := by
  have htake (y : PyStr) : (x ++ y).takeWhile (· ≠ 0x7d) = x.takeWhile (· ≠ 0x7d) := by
    have hlt : (x.takeWhile (· ≠ 0x7d)).length ≠ x.length := fun hlength => by
      have hall := List.takeWhile_eq_self_iff.1 ((List.takeWhile_prefix _).eq_of_length hlength)
      simpa using hall _ h
    rw [List.takeWhile_append, if_neg hlt]
  simp only [braceVaries, htake, List.contains_eq_mem, List.mem_append, h, true_or]

/-- What a brace reads that nothing closes before a place. -/
theorem braceVaries_append (h : 0x7d ∉ x) (hd : Unnumeral d)
    (hmem : d ∈ x ∨ d ∈ y.takeWhile (· ≠ 0x7d)) : braceVaries digits (x ++ y) =
      (y.contains 0x7d && endsVariably (x ++ y.takeWhile (· ≠ 0x7d))) := by
  have htake : (x ++ y).takeWhile (· ≠ 0x7d) = x ++ y.takeWhile (· ≠ 0x7d) := by
    refine List.takeWhile_append_of_pos fun c hc => ?_
    simp only [decide_eq_true_eq]
    rintro rfl
    exact h hc
  rw [braceVaries, htake, isVariableRepetition_eq hd (by simpa using hmem)]
  simp [h]

/-- The tokens of a text that another one follows. -/
def tokensBefore (digits : DecimalDigits) (y : PyStr) : Mode → PyStr → List Tok
  | _, [] => []
  | m, c :: s => tokOf (varies digits c (s ++ y)) (m.sees c) :: tokensBefore digits y (m.next c) s

def tokens (digits : DecimalDigits) (pattern : PyStr) : List Tok :=
  tokensBefore digits [] .plain pattern

theorem tokensBefore_append : tokensBefore digits y m (x ++ z) =
    tokensBefore digits (z ++ y) m x ++ tokensBefore digits y (modeAfter m x) z := by
  induction x generalizing m with
  | nil => rfl
  | cons c x ih =>
      rw [List.cons_append, tokensBefore, ih, tokensBefore, List.append_assoc, modeAfter_cons,
        List.cons_append]

@[simp] theorem length_tokensBefore : (tokensBefore digits y m s).length = s.length := by
  induction s generalizing m with
  | nil => rfl
  | cons c s ih => rw [tokensBefore, List.length_cons, ih, List.length_cons]

theorem tokensBefore_congr (h : ∀ u v, x = u ++ 0x7b :: v →
    braceVaries digits (v ++ y) = braceVaries digits (v ++ z)) :
    tokensBefore digits y m x = tokensBefore digits z m x := by
  induction x generalizing m with
  | nil => rfl
  | cons c x ih =>
      have hrest := ih (m := m.next c) fun u v hx => h (c :: u) v (by rw [hx, List.cons_append])
      have hhead : varies digits c (x ++ y) = varies digits c (x ++ z) := by
        unfold varies
        by_cases hc : c = 0x7b
        · rw [h [] x (by rw [hc, List.nil_append])]
        · simp [hc]
      rw [tokensBefore, tokensBefore, hrest, hhead]

theorem labelled_append (reps : List ℕ) (i : ℕ) (vs ws : List (Option ℕ)) :
    labelled reps i (vs ++ ws) = labelled reps i vs ++ labelled reps (i + vs.length) ws := by
  induction vs generalizing i with
  | nil => rfl
  | cons v vs ih =>
      have hsum : i + 1 + vs.length = i + (vs.length + 1) := by omega
      rw [List.cons_append, labelled, ih, labelled, List.length_cons, hsum, List.cons_append]

theorem map_snd_labelled {reps : List ℕ} (h : ∀ u c v, x = u ++ c :: v →
    modeAfter m u = .plain → (i + u.length ∈ reps ↔ varies digits c (v ++ y))) :
    (labelled reps i (visible m x)).map Prod.snd = tokensBefore digits y m x := by
  induction x generalizing m i with
  | nil => rfl
  | cons c x ih =>
      have hrest := ih (m := m.next c) (i := i + 1) fun u d v hx hplain => by
        have hlength : i + 1 + u.length = i + (c :: u).length := by
          rw [List.length_cons]
          omega
        rw [hlength]
        exact h (c :: u) d v (by rw [hx, List.cons_append]) hplain
      rw [visible, labelled, List.map_cons, hrest, tokensBefore]
      by_cases hplain : m = .plain
      · have hhead := h [] c x rfl hplain
        rw [List.length_nil, Nat.add_zero] at hhead
        simp only [hhead, Bool.decide_eq_true]
      · have hnone : m.sees c = none := if_neg fun h => hplain h.1
        rw [hnone]
        rfl

theorem mem_unbounded_append (hplain : modeAfter .plain x = .plain) :
    x.length ∈ unboundedQuantifierPositions digits (x ++ c :: s) ↔ varies digits c s := by
  rw [mem_unbounded_iff]
  constructor
  · rintro ⟨x', c', s', heq, hlength, -, hvaries⟩
    obtain ⟨-, hcons⟩ := List.append_inj heq hlength.symm
    obtain ⟨rfl, rfl⟩ := List.cons.inj hcons
    exact hvaries
  · intro hvaries
    exact ⟨x, c, s, rfl, rfl, hplain, hvaries⟩

theorem map_snd_tokensBy :
    (tokensBy (unboundedQuantifierPositions digits p) p).map Prod.snd = tokens digits p := by
  refine map_snd_labelled fun u c v hp hplain => ?_
  subst hp
  rw [Nat.zero_add, List.append_nil]
  exact mem_unbounded_append hplain

theorem refuses_iff_tokens : Refuses digits p ↔ Refused (tokens digits p) := by
  rw [refuses_iff, ← map_snd_tokensBy, refused_tokens_iff quantify_unbounded]
  exact exists_congr fun span => refusedAt_iff

def metacharacters : List ℕ :=
  [0x5c, 0x5b, 0x5d, 0x28, 0x29, 0x7b, 0x7d, 0x2c, 0x7c, 0x2a, 0x2b]

/-- What may stand between the bracket of a group and its body: `?:`, `?P<name>`, `?=` and the
like. -/
def isOpener (s : PyStr) : Bool :=
  s = [] || (s.head? = some 0x3f && s.getLast?.any ([0x3a, 0x3e, 0x3d, 0x21].contains ·) &&
    s.all fun c => !metacharacters.contains c)

inductive Respelling
  /-- The body, which follows an opener of some length, in one more non-capturing group. -/
  | wrapped (opener : ℕ)
  /-- The `{0,1}` at a position as `?`. -/
  | optional (position : ℕ)
  /-- The `+` after the group as `{1,}`. -/
  | atLeastOnce

def bodyStart (span : ℕ × ℕ) (opener : ℕ) : ℕ := span.1 + 1 + opener

def Respelling.Applies (pattern : PyStr) (span : ℕ × ℕ) : Respelling → Prop
  | .wrapped opener => bodyStart span opener ≤ span.2 ∧
      isOpener ((pattern.drop (span.1 + 1)).take opener) ∧
      (opener = 0 → (pattern.drop (span.1 + 1)).head? ≠ some 0x3f)
  | .optional position => span.1 < position ∧ position < span.2 ∧
      (position, 0x7b) ∈ scan pattern ∧
      (pattern.drop position).take 5 = [0x7b, 0x30, 0x2c, 0x31, 0x7d]
  | .atLeastOnce => (pattern.drop (span.2 + 1)).head? = some 0x2b

def Respelling.apply (pattern : PyStr) (span : ℕ × ℕ) : Respelling → PyStr
  | .wrapped opener => pattern.take (bodyStart span opener) ++ [0x28, 0x3f, 0x3a] ++
      (pattern.drop (bodyStart span opener)).take (span.2 - bodyStart span opener) ++
      0x29 :: pattern.drop span.2
  | .optional position => pattern.take position ++ 0x3f :: pattern.drop (position + 5)
  | .atLeastOnce =>
      pattern.take (span.2 + 1) ++ [0x7b, 0x31, 0x2c, 0x7d] ++ pattern.drop (span.2 + 2)

/-- The braces that nothing closes before a position, and that read as a variable repetition
with `?` there. -/
def strays (digits : DecimalDigits) (pattern : PyStr) (position : ℕ) : List ℕ :=
  ((scan pattern).filter fun p => p.2 = 0x7b && p.1 < position &&
    !((pattern.take position).drop (p.1 + 1)).contains 0x7d &&
    braceVaries digits ((pattern.take position).drop (p.1 + 1) ++
      0x3f :: pattern.drop (position + 5))).map Prod.fst

/-- The quantifiers of a pattern without the one at a position. -/
def struck (digits : DecimalDigits) (pattern : PyStr) (position : ℕ) : List ℕ :=
  (unboundedQuantifierPositions digits pattern).filter (· ≠ position) ++
    strays digits pattern position

/-- What is left to refuse the pattern for: when the body is wrapped, a repetition in the
group or another group; when a `{0,1}` is written `?`, a group that is refused without it. -/
def Respelling.LeavesRefused (digits : DecimalDigits) (pattern : PyStr) (span : ℕ × ℕ) :
    Respelling → Prop
  | .wrapped _ => (∃ position ∈ unboundedQuantifierPositions digits pattern,
        span.1 < position ∧ position < span.2) ∨
      ∃ other ≠ span, RefusedAt digits pattern other
  | .optional position => ∃ other, RefusedBy (struck digits pattern position) pattern other
  | .atLeastOnce => True

theorem mem_filter_scan_iff {f : ℕ × ℕ → Bool} : i ∈ ((scan p).filter f).map Prod.fst ↔
    ∃ u c v, p = u ++ c :: v ∧ u.length = i ∧ modeAfter .plain u = .plain ∧ c ≠ 0x5c ∧ c ≠ 0x5b ∧
      f (i, c) := by
  rw [List.mem_map]
  constructor
  · rintro ⟨⟨i, c⟩, hmem, rfl⟩
    obtain ⟨hscan, hf⟩ := List.mem_filter.1 hmem
    obtain ⟨u, v, hp, hu, hplain, hescape, hclass⟩ := mem_scan_iff.1 hscan
    exact ⟨u, c, v, hp, hu, hplain, hescape, hclass, hf⟩
  · rintro ⟨u, c, v, hp, hu, hplain, hescape, hclass, hf⟩
    exact ⟨(i, c), List.mem_filter.2 ⟨mem_scan_iff.2 ⟨u, v, hp, hu, hplain, hescape, hclass⟩, hf⟩,
      rfl⟩

theorem RefusedBy.mono {reps reps' : List ℕ} {span : ℕ × ℕ} (h : RefusedBy reps p span)
    (hsub : ∀ i ∈ reps, i ∈ reps') : RefusedBy reps' p span := by
  obtain ⟨hspan, hafter, hbad⟩ := h
  refine ⟨hspan, hsub _ hafter, hbad.imp_left ?_⟩
  rintro ⟨position, hmem, hin⟩
  exact ⟨position, hsub _ hmem, hin⟩

/-- A brace that nothing closes before the `)` of a group reads `{1,}` as variable, if it read
`+` so. -/
theorem braceVaries_atLeastOnce {v : PyStr} (h : braceVaries digits (v ++ 0x29 :: 0x2b :: z)) :
    braceVaries digits (v ++ 0x29 :: ([0x7b, 0x31, 0x2c, 0x7d] ++ z)) := by
  by_cases hclosed : 0x7d ∈ v
  · rwa [braceVaries_of_mem hclosed _ (0x29 :: 0x2b :: z)]
  · have hparen : Unnumeral 0x29 := Or.inr (Or.inl rfl)
    rw [braceVaries_append hclosed hparen (Or.inr (by simp)), Bool.and_eq_true] at h
    have hends := h.2
    simp only [ne_eq, List.takeWhile_cons, decide_not, Nat.reduceEqDiff, decide_false,
      Bool.not_false, if_true] at hends
    rw [endsVariably_append (by decide) (by decide), Bool.and_eq_true] at hends
    rw [braceVaries_append hclosed hparen (Or.inr (by simp))]
    have htake : (0x29 :: ([0x7b, 0x31, 0x2c, 0x7d] ++ z)).takeWhile (· ≠ 0x7d) =
        0x29 :: [0x7b, 0x31, 0x2c] := by simp
    rw [htake, endsVariably_append (by decide) (by decide), hends.1]
    simp [endsVariably, blank]

theorem mem_filter_scan_append {f : ℕ × ℕ → Bool} {u v : PyStr}
    (hplain : modeAfter .plain u = .plain) (hf : f (u.length, c) → c ≠ 0x5c ∧ c ≠ 0x5b) :
    u.length ∈ ((scan (u ++ c :: v)).filter f).map Prod.fst ↔ f (u.length, c) := by
  rw [mem_filter_scan_iff]
  constructor
  · rintro ⟨u', c', v', heq, hlength, -, -, -, h⟩
    obtain ⟨-, hcons⟩ := List.append_inj heq hlength.symm
    rwa [(List.cons.inj hcons).1]
  · intro h
    exact ⟨u, c, v, rfl, rfl, hplain, (hf h).1, (hf h).2, h⟩

theorem quantify_filter_scan {f : ℕ × ℕ → Bool}
    (hf : ∀ i c, f (i, c) → c ≠ 0x28 ∧ c ≠ 0x29 ∧ c ≠ 0x7c) :
    Quantify (((scan p).filter f).map Prod.fst) p := by
  intro i hi
  obtain ⟨u, c, v, hp, hu, hplain, hescape, hclass, h⟩ := mem_filter_scan_iff.1 hi
  exact ⟨c, getElem?_visible_eq.2 ⟨u, v, hp, hu, hplain, hescape, hclass⟩, hf i c h⟩

theorem varies_ne (h : varies digits c s) :
    c ≠ 0x5c ∧ c ≠ 0x5b ∧ c ≠ 0x28 ∧ c ≠ 0x29 ∧ c ≠ 0x7c := by
  rcases varies_cases h with rfl | rfl | ⟨rfl, -⟩ <;> decide

variable {n : PyStr}

/-- The tokens of a pattern with a part of it read as something else. -/
theorem map_snd_tokensBy_split {reps : List ℕ} (hplain : modeAfter .plain x = .plain)
    (hmiddle : modeAfter .plain y = .plain)
    (hbefore : ∀ u c v, x = u ++ c :: v → modeAfter .plain u = .plain →
      (u.length ∈ reps ↔ varies digits c (v ++ (n ++ z))))
    (hbehind : ∀ u c v, z = u ++ c :: v → modeAfter .plain u = .plain →
      (x.length + y.length + u.length ∈ reps ↔ varies digits c v)) :
    (tokensBy reps (x ++ (y ++ z))).map Prod.snd = tokensBefore digits (n ++ z) .plain x ++
      ((labelled reps x.length (visible .plain y)).map Prod.snd ++ tokens digits z) := by
  rw [tokensBy, visible_append, hplain, labelled_append, visible_append, hmiddle, labelled_append,
    List.map_append, List.map_append, length_visible, length_visible, Nat.zero_add]
  congr 1
  · refine map_snd_labelled fun u c v hx hu => ?_
    rw [Nat.zero_add]
    exact hbefore u c v hx hu
  · congr 1
    refine map_snd_labelled fun u c v hz hu => ?_
    rw [List.append_nil]
    exact hbehind u c v hz hu

theorem tokens_split (hplain : modeAfter .plain x = .plain)
    (hmiddle : modeAfter .plain n = .plain) : tokens digits (x ++ (n ++ z)) =
      tokensBefore digits (n ++ z) .plain x ++
        (tokensBefore digits z .plain n ++ tokens digits z) := by
  rw [tokens, tokensBefore_append, hplain, tokensBefore_append, hmiddle, List.append_nil,
    List.append_nil]
  rfl

theorem exists_split_of_length_le {u v : PyStr} (h : x ++ y = u ++ c :: v)
    (hlength : u.length < x.length) : ∃ w, x = u ++ c :: w ∧ v = w ++ y := by
  rcases List.append_eq_append_iff.1 h with ⟨w, hu, -⟩ | ⟨w, hx, hy⟩
  · rw [hu, List.length_append] at hlength
    omega
  · rcases w with _ | ⟨d, w⟩
    · rw [hx, List.append_nil] at hlength
      exact absurd hlength (lt_irrefl _)
    · obtain ⟨rfl, rfl⟩ := List.cons.inj hy
      exact ⟨w, hx, rfl⟩

/-- The quantifiers of a pattern where a `+` after a group is read as `{1,}`. -/
def widened (digits : DecimalDigits) (x z pattern : PyStr) : List ℕ :=
  ((scan pattern).filter fun p => if p.1 < x.length then
      varies digits p.2 (x.drop (p.1 + 1) ++ ([0x7b, 0x31, 0x2c, 0x7d] ++ z))
    else varies digits p.2 (pattern.drop (p.1 + 1))).map Prod.fst

theorem mem_widened_iff {u v : PyStr} (hplain : modeAfter .plain u = .plain) :
    u.length ∈ widened digits x z (u ++ c :: v) ↔ if u.length < x.length then
        varies digits c (x.drop (u.length + 1) ++ ([0x7b, 0x31, 0x2c, 0x7d] ++ z)) = true
      else varies digits c v = true := by
  have hdrop : (u ++ c :: v).drop (u.length + 1) = v := by simp
  rw [widened, mem_filter_scan_append hplain, hdrop]
  · split_ifs <;> rfl
  · intro h
    split_ifs at h
    · exact ⟨(varies_ne h).1, (varies_ne h).2.1⟩
    · exact ⟨(varies_ne h).1, (varies_ne h).2.1⟩

theorem quantify_widened : Quantify (widened digits x z p) p := by
  refine quantify_filter_scan fun i c h => ?_
  split_ifs at h
  · exact (varies_ne h).2.2
  · exact (varies_ne h).2.2

theorem unbounded_subset_widened {w : PyStr} (hx : x = w ++ [0x29])
    (hi : i ∈ unboundedQuantifierPositions digits (x ++ ([0x2b] ++ z))) :
    i ∈ widened digits x z (x ++ ([0x2b] ++ z)) := by
  obtain ⟨u, c, v, heq, rfl, hu, hvaries⟩ := mem_unbounded_iff.1 hi
  rw [heq, mem_widened_iff hu]
  split_ifs with hlt
  · obtain ⟨w', hxu, rfl⟩ := exists_split_of_length_le heq hlt
    have hdrop : x.drop (u.length + 1) = w' := by simp [hxu]
    rw [hdrop]
    rcases varies_cases hvaries with rfl | rfl | ⟨rfl, hbrace⟩
    · rfl
    · rfl
    · rcases List.eq_nil_or_concat w' with rfl | ⟨v, d, rfl⟩
      · rw [hx] at hxu
        cases List.append_inj_right' hxu rfl
      · have hlast : (w ++ [0x29]).getLast? = (u ++ 0x7b :: v.concat d).getLast? := by
          rw [← hx, hxu]
        simp only [List.concat_eq_append, List.getLast?_append, List.getLast?_cons,
          Option.some_or, Option.some.injEq] at hlast
        obtain rfl : 0x29 = d := by simpa using hlast
        rw [List.concat_eq_append, List.append_assoc] at hbrace ⊢
        have hwide := braceVaries_atLeastOnce (v := v) (z := z) hbrace
        simpa [varies] using hwide
  · exact hvaries

theorem refuses_atLeastOnce {w : PyStr} (hx : x = w ++ [0x29])
    (hplain : modeAfter .plain x = .plain)
    (hrefused : Refuses digits (x ++ ([0x2b] ++ z))) :
    Refuses digits (x ++ ([0x7b, 0x31, 0x2c, 0x7d] ++ z)) := by
  have hat : x.length ∈ widened digits x z (x ++ ([0x2b] ++ z)) := by
    rw [List.singleton_append, mem_widened_iff hplain, if_neg (lt_irrefl _)]
    rfl
  have hbefore (u : PyStr) (c : ℕ) (v : PyStr) (hxu : x = u ++ c :: v)
      (hu : modeAfter .plain u = .plain) : u.length ∈ widened digits x z (x ++ ([0x2b] ++ z)) ↔
        varies digits c (v ++ ([0x7b, 0x31, 0x2c, 0x7d] ++ z)) := by
    have hpattern : x ++ ([0x2b] ++ z) = u ++ c :: (v ++ ([0x2b] ++ z)) := by simp [hxu]
    have hlt : u.length < x.length := by simp [hxu]
    have hdrop : x.drop (u.length + 1) = v := by simp [hxu]
    rw [hpattern, mem_widened_iff hu, if_pos hlt, hdrop]
  have hbehind (u : PyStr) (c : ℕ) (v : PyStr) (hz : z = u ++ c :: v)
      (hu : modeAfter .plain u = .plain) : x.length + [0x2b].length + u.length ∈
        widened digits x z (x ++ ([0x2b] ++ z)) ↔ varies digits c v := by
    have hpattern : x ++ ([0x2b] ++ z) = (x ++ ([0x2b] ++ u)) ++ c :: v := by simp [hz]
    have hmode : modeAfter .plain (x ++ ([0x2b] ++ u)) = .plain := by
      simpa [hplain, Mode.next] using hu
    have hlength : x.length + [0x2b].length + u.length = (x ++ ([0x2b] ++ u)).length := by
      simp only [List.length_append]
      omega
    rw [hpattern, hlength, mem_widened_iff hmode, if_neg (by simp)]
  have hwidened : (tokensBy (widened digits x z (x ++ ([0x2b] ++ z)))
      (x ++ ([0x2b] ++ z))).map Prod.snd = tokensBefore digits ([0x7b, 0x31, 0x2c, 0x7d] ++ z)
        .plain x ++ .rep :: tokens digits z := by
    rw [map_snd_tokensBy_split hplain (by decide) hbefore hbehind, visible, labelled,
      decide_eq_true hat]
    rfl
  have htokens : tokens digits (x ++ ([0x7b, 0x31, 0x2c, 0x7d] ++ z)) =
      tokensBefore digits ([0x7b, 0x31, 0x2c, 0x7d] ++ z) .plain x ++
        .rep :: (List.replicate 3 .atom ++ tokens digits z) := by
    rw [tokens_split hplain (by decide)]
    have hvaries : varies digits 0x7b (0x31 :: 0x2c :: 0x7d :: z) := by
      simp [varies, braceVaries, isVariableRepetition, strip_eq_nil_iff, blank]
    have hone (s : PyStr) : varies digits 0x31 s = false := by simp [varies]
    have hcomma (s : PyStr) : varies digits 0x2c s = false := by simp [varies]
    have hclose (s : PyStr) : varies digits 0x7d s = false := by simp [varies]
    simp [tokensBefore, Mode.sees, Mode.next, tokOf, hvaries, hone, hcomma, hclose,
      List.replicate]
  obtain ⟨span, hspan⟩ := refuses_iff.1 hrefused
  have hwide := (refusedAt_iff.1 hspan).mono fun i hi => unbounded_subset_widened hx hi
  have hrefused' := (refused_tokens_iff quantify_widened).2 ⟨span, hwide⟩
  rw [refuses_iff_tokens, htokens, refused_rep_atoms, ← hwidened]
  exact hrefused'

theorem not_braceVaries_optional {v : PyStr} (h : 0x7d ∉ v) :
    braceVaries digits (v ++ ([0x7b, 0x30, 0x2c, 0x31, 0x7d] ++ z)) = false := by
  have htake : ([0x7b, 0x30, 0x2c, 0x31, 0x7d] ++ z).takeWhile (· ≠ 0x7d) =
      0x7b :: [0x30, 0x2c, 0x31] := by simp
  rw [braceVaries_append h (Or.inr (Or.inr (Or.inl rfl))) (Or.inr (by simp)), htake,
    endsVariably_append (by decide) (by decide)]
  have hone : endsVariably [0x30, 0x2c, 0x31] = false := by decide
  rw [hone, Bool.and_false, Bool.and_false]

theorem mem_struck_iff {u v : PyStr} (hplain : modeAfter .plain u = .plain)
    (hpattern : x ++ ([0x7b, 0x30, 0x2c, 0x31, 0x7d] ++ z) = u ++ c :: v) :
    u.length ∈ struck digits (u ++ c :: v) x.length ↔ varies digits c v ∧ u.length ≠ x.length ∨
      c = 0x7b ∧ u.length < x.length ∧ 0x7d ∉ x.drop (u.length + 1) ∧
        braceVaries digits (x.drop (u.length + 1) ++ ([0x3f] ++ z)) := by
  have htake : (u ++ c :: v).take x.length = x := by rw [← hpattern, List.take_left]
  have hdrop : (u ++ c :: v).drop (x.length + 5) = z := by
    rw [← hpattern, ← List.append_assoc]
    exact List.drop_left' (by simp)
  rw [struck, List.mem_append, List.mem_filter, mem_unbounded_append hplain, strays, htake, hdrop,
    mem_filter_scan_append hplain]
  · simp [and_assoc]
  · intro h
    simp only [Bool.and_eq_true, decide_eq_true_eq] at h
    rw [h.1.1.1]
    decide

theorem labelled_of_disjoint {reps : List ℕ} {vs : List (Option ℕ)}
    (h : ∀ k < vs.length, i + k ∉ reps) : labelled reps i vs = labelled [] i vs := by
  induction vs generalizing i with
  | nil => rfl
  | cons v vs ih =>
      have hrest := ih (i := i + 1) fun k hk => by
        have hsum : i + 1 + k = i + (k + 1) := by omega
        rw [hsum]
        exact h (k + 1) (by simpa using hk)
      have hhead : i ∉ reps := h 0 (by simp)
      rw [labelled, labelled, hrest, decide_eq_false hhead]
      rfl

theorem quantify_struck : Quantify (struck digits p i) p := by
  intro j hj
  rcases List.mem_append.1 hj with hj | hj
  · exact quantify_unbounded j (List.mem_filter.1 hj).1
  · refine quantify_filter_scan (fun j c h => ?_) j hj
    simp only [Bool.and_eq_true, decide_eq_true_eq] at h
    rw [h.1.1.1]
    decide

theorem notMem_struck (hplain : modeAfter .plain x = .plain) {k : ℕ}
    (hk : k < (visible .plain [0x7b, 0x30, 0x2c, 0x31, 0x7d]).length) :
    x.length + k ∉ struck digits (x ++ ([0x7b, 0x30, 0x2c, 0x31, 0x7d] ++ z)) x.length := by
  have hmodes : ∀ k < 5, modeAfter .plain (([0x7b, 0x30, 0x2c, 0x31, 0x7d] : PyStr).take k) =
      .plain := by decide
  have hchars : ∀ c ∈ [0x30, 0x2c, 0x31, 0x7d], ∀ s, varies digits c s = false := by
    simp [varies]
  rw [length_visible] at hk
  have hsplit : ([0x7b, 0x30, 0x2c, 0x31, 0x7d] : PyStr) ++ z =
      ([0x7b, 0x30, 0x2c, 0x31, 0x7d] : PyStr).take k ++
        ([0x7b, 0x30, 0x2c, 0x31, 0x7d] : PyStr)[k] ::
        (([0x7b, 0x30, 0x2c, 0x31, 0x7d] : PyStr).drop (k + 1) ++ z) := by
    rw [← List.cons_append, ← List.drop_eq_getElem_cons, ← List.append_assoc,
      List.take_append_drop]
  have hlength : x.length + k =
      (x ++ ([0x7b, 0x30, 0x2c, 0x31, 0x7d] : PyStr).take k).length := by
    rw [List.length_append, List.length_take_of_le hk.le]
  have hmode : modeAfter .plain (x ++ ([0x7b, 0x30, 0x2c, 0x31, 0x7d] : PyStr).take k) =
      .plain := by
    rw [modeAfter_append, hplain]
    exact hmodes k hk
  rw [hsplit, ← List.append_assoc, hlength, mem_struck_iff hmode (by
    rw [hsplit, ← List.append_assoc])]
  rw [← hlength]
  rintro (⟨hvaries, hne⟩ | ⟨-, hlt, -⟩)
  · rcases k with _ | k
    · exact hne rfl
    · have hmem : ([0x7b, 0x30, 0x2c, 0x31, 0x7d] : PyStr)[k + 1] ∈ [0x30, 0x2c, 0x31, 0x7d] :=
        List.getElem_mem (l := [0x30, 0x2c, 0x31, 0x7d]) (Nat.lt_of_succ_lt_succ hk)
      rw [hchars _ hmem] at hvaries
      cases hvaries
  · omega

theorem refuses_optional_iff (hplain : modeAfter .plain x = .plain) :
    Refuses digits (x ++ ([0x3f] ++ z)) ↔ ∃ span, RefusedBy (struck digits
      (x ++ ([0x7b, 0x30, 0x2c, 0x31, 0x7d] ++ z)) x.length)
      (x ++ ([0x7b, 0x30, 0x2c, 0x31, 0x7d] ++ z)) span := by
  have hbefore (u : PyStr) (c : ℕ) (v : PyStr) (hxu : x = u ++ c :: v)
      (hu : modeAfter .plain u = .plain) : u.length ∈ struck digits
        (x ++ ([0x7b, 0x30, 0x2c, 0x31, 0x7d] ++ z)) x.length ↔
          varies digits c (v ++ ([0x3f] ++ z)) := by
    have hpattern : x ++ ([0x7b, 0x30, 0x2c, 0x31, 0x7d] ++ z) =
        u ++ c :: (v ++ ([0x7b, 0x30, 0x2c, 0x31, 0x7d] ++ z)) := by simp [hxu]
    have hlt : u.length < x.length := by simp [hxu]
    have hdrop : x.drop (u.length + 1) = v := by simp [hxu]
    rw [hpattern, mem_struck_iff hu hpattern, hdrop]
    by_cases hbrace : c = 0x7b
    · subst hbrace
      have hvaries (s : PyStr) : varies digits 0x7b s ↔ braceVaries digits s := by simp [varies]
      rw [hvaries, hvaries]
      by_cases hclosed : 0x7d ∈ v
      · rw [braceVaries_of_mem hclosed _ ([0x3f] ++ z)]
        simp [hclosed, hlt.ne]
      · rw [not_braceVaries_optional hclosed]
        simp [hclosed, hlt]
    · have hsame (s t : PyStr) : varies digits c s = varies digits c t := by simp [varies, hbrace]
      rw [hsame _ (v ++ ([0x3f] ++ z))]
      simp [hbrace, hlt.ne]
  have hbehind (u : PyStr) (c : ℕ) (v : PyStr) (hz : z = u ++ c :: v)
      (hu : modeAfter .plain u = .plain) :
      x.length + [0x7b, 0x30, 0x2c, 0x31, 0x7d].length + u.length ∈ struck digits
        (x ++ ([0x7b, 0x30, 0x2c, 0x31, 0x7d] ++ z)) x.length ↔ varies digits c v := by
    have hpattern : x ++ ([0x7b, 0x30, 0x2c, 0x31, 0x7d] ++ z) =
        (x ++ ([0x7b, 0x30, 0x2c, 0x31, 0x7d] ++ u)) ++ c :: v := by simp [hz]
    have hmode : modeAfter .plain (x ++ ([0x7b, 0x30, 0x2c, 0x31, 0x7d] ++ u)) = .plain := by
      simpa [hplain, Mode.next] using hu
    have hlength : x.length + [0x7b, 0x30, 0x2c, 0x31, 0x7d].length + u.length =
        (x ++ ([0x7b, 0x30, 0x2c, 0x31, 0x7d] ++ u)).length := by
      simp only [List.length_append]
      omega
    have hlong : x.length < (x ++ ([0x7b, 0x30, 0x2c, 0x31, 0x7d] ++ u)).length := by simp
    rw [hpattern, hlength, mem_struck_iff hmode hpattern]
    have hne := hlong.ne'
    have hnot := hlong.not_gt
    tauto
  have hmiddle : (labelled (struck digits (x ++ ([0x7b, 0x30, 0x2c, 0x31, 0x7d] ++ z)) x.length)
      x.length (visible .plain [0x7b, 0x30, 0x2c, 0x31, 0x7d])).map Prod.snd =
        List.replicate 5 .atom := by
    rw [labelled_of_disjoint fun k hk => notMem_struck hplain hk]
    rfl
  have htokens : tokens digits (x ++ ([0x3f] ++ z)) = tokensBefore digits ([0x3f] ++ z) .plain x ++
      (List.replicate 1 .atom ++ tokens digits z) := by
    have hatom : varies digits 0x3f z = false := by simp [varies]
    rw [tokens_split hplain (by decide), tokensBefore, List.nil_append, hatom]
    rfl
  rw [refuses_iff_tokens, htokens, refused_atoms 0 4, ← refused_tokens_iff quantify_struck,
    map_snd_tokensBy_split hplain (by decide) hbefore hbehind, hmiddle]

theorem modeAfter_of_notMem (h : ∀ c ∈ s, c ≠ 0x5c ∧ c ≠ 0x5b) :
    modeAfter .plain s = .plain := by
  induction s with
  | nil => rfl
  | cons c s ih =>
      obtain ⟨hc, hs⟩ := List.forall_mem_cons.1 h
      rw [modeAfter_cons, Mode.next, if_neg hc.1, if_neg hc.2, ih hs]

theorem not_mem_metacharacters_of_isOpener (h : isOpener s) : ∀ c ∈ s, c ∉ metacharacters := by
  intro c hc
  rcases Bool.or_eq_true _ _ ▸ h with hnil | hopener
  · rw [of_decide_eq_true hnil] at hc
    cases hc
  · have hall := (Bool.and_eq_true _ _ ▸ hopener).2
    simpa using List.all_eq_true.1 hall c hc

theorem tokensBefore_opener (h : ∀ c ∈ s, c ∉ metacharacters) (y : PyStr) :
    ∀ tok ∈ tokensBefore digits y .plain s, tok = .atom := by
  induction s with
  | nil => simp [tokensBefore]
  | cons c s ih =>
      obtain ⟨hc, hs⟩ := List.forall_mem_cons.1 h
      simp only [metacharacters, List.mem_cons, List.not_mem_nil, or_false, not_or] at hc
      have hvaries : varies digits c (s ++ y) = false := by simp [varies, hc]
      have hnext : Mode.plain.next c = .plain := by simp [Mode.next, hc]
      rw [tokensBefore, hnext]
      refine List.forall_mem_cons.2 ⟨?_, ih hs⟩
      simp [Mode.sees, tokOf, hc, hvaries]

theorem endsVariably_of_notMem_append (h : 0x2c ∉ x) (y : PyStr) :
    endsVariably (x ++ y) = endsVariably y := by
  induction x with
  | nil => rfl
  | cons c x ih =>
      obtain ⟨hc, hx⟩ := not_or.1 (mt List.mem_cons.2 h)
      rw [List.cons_append, endsVariably, if_neg (Ne.symm hc), ih hx]

/-- One more `)` after the body of a group is nothing to a brace before it. -/
theorem braceVaries_closed (v z : PyStr) : braceVaries digits (v ++ 0x29 :: z) =
    braceVaries digits (v ++ 0x29 :: 0x29 :: z) := by
  by_cases hclosed : 0x7d ∈ v
  · exact braceVaries_of_mem hclosed _ _
  · have hparen : Unnumeral 0x29 := Or.inr (Or.inl rfl)
    have htake (s : PyStr) : (0x29 :: s).takeWhile (· ≠ 0x7d) = 0x29 :: s.takeWhile (· ≠ 0x7d) :=
      List.takeWhile_cons_of_pos (by decide)
    have hends (s : PyStr) : endsVariably (0x29 :: s) = endsVariably s := rfl
    rw [braceVaries_append hclosed hparen (Or.inr (by simp)),
      braceVaries_append hclosed hparen (Or.inr (by simp)), htake, htake, htake,
      endsVariably_append (by decide) (by decide), endsVariably_append (by decide) (by decide),
      hends]
    simp

theorem braceVaries_opened {u k v w : PyStr} (hk : ∀ c ∈ k, c ∉ metacharacters)
    (h : u ++ 0x28 :: k = w ++ 0x7b :: v) :
    braceVaries digits (v ++ ([0x28, 0x3f, 0x3a] ++ y)) = braceVaries digits (v ++ y) := by
  obtain ⟨v, rfl⟩ : ∃ v', v = v' ++ 0x28 :: k := by
    rcases List.append_eq_append_iff.1 h with ⟨w', -, hw⟩ | ⟨w', -, hw⟩
    · rcases w' with _ | ⟨d, w'⟩
      · cases (List.cons.inj hw).1
      · have hmem : 0x7b ∈ k := by
          rw [(List.cons.inj hw).2]
          simp
        exact absurd (by decide) (hk _ hmem)
    · rcases w' with _ | ⟨d, w'⟩
      · cases (List.cons.inj hw).1
      · exact ⟨w', (List.cons.inj hw).2⟩
  by_cases hclosed : 0x7d ∈ v ++ 0x28 :: k
  · exact braceVaries_of_mem hclosed _ _
  · have hparen : Unnumeral 0x28 := Or.inl rfl
    have hcomma : 0x2c ∉ k := fun hmem => hk _ hmem (by decide)
    have htake : ([0x28, 0x3f, 0x3a] ++ y).takeWhile (· ≠ 0x7d) =
        [0x28, 0x3f, 0x3a] ++ y.takeWhile (· ≠ 0x7d) :=
      List.takeWhile_append_of_pos (by decide)
    have hreads (t : PyStr) : endsVariably (v ++ 0x28 :: k ++ t) =
        (decide (0x2c ∉ v) && endsVariably t) := by
      rw [List.append_assoc, List.cons_append, endsVariably_append (by decide) (by decide),
        endsVariably_of_notMem_append hcomma]
    rw [braceVaries_append hclosed hparen (Or.inl (by simp)),
      braceVaries_append hclosed hparen (Or.inl (by simp)), htake, hreads, hreads,
      endsVariably_of_notMem_append (by decide)]
    simp

theorem tokens_wrapped {u k b : PyStr} (hk : ∀ c ∈ k, c ∉ metacharacters)
    (hx : x = u ++ 0x28 :: k) (hplain : modeAfter .plain x = .plain)
    (hb : modeAfter .plain b = .plain) :
    tokens digits (x ++ ([0x28, 0x3f, 0x3a] ++ (b ++ ([0x29, 0x29] ++ z)))) =
      tokensBefore digits (b ++ 0x29 :: z) .plain x ++ ([.opens, .atom, .atom] ++
        (tokensBefore digits (0x29 :: z) .plain b ++ .closes :: .closes :: tokens digits z)) := by
  have hclosed : tokensBefore digits (0x29 :: z) .plain (x ++ b) =
      tokensBefore digits (0x29 :: 0x29 :: z) .plain (x ++ b) :=
    tokensBefore_congr fun w v _ => braceVaries_closed v z
  rw [tokensBefore_append, tokensBefore_append, hplain] at hclosed
  obtain ⟨hbefore, hbody⟩ := List.append_inj hclosed (by simp)
  have hopened (t : PyStr) : tokensBefore digits ([0x28, 0x3f, 0x3a] ++ t) .plain x =
      tokensBefore digits t .plain x := tokensBefore_congr fun w v heq =>
    braceVaries_opened hk (hx ▸ heq)
  have hparens (t : PyStr) : tokensBefore digits t .plain [0x29, 0x29] = [.closes, .closes] := rfl
  have hwrap (t : PyStr) : tokensBefore digits t .plain [0x28, 0x3f, 0x3a] =
      [.opens, .atom, .atom] := rfl
  rw [tokens_split hplain (by decide), hopened, tokens_split hb (by decide), hparens, hwrap]
  rw [List.cons_append, List.cons_append, List.nil_append, ← hbefore, ← hbody]
  rfl

theorem nodup_closed (reps : List ℕ) (p : PyStr) :
    ((reports .start (tokensBy reps p)).map Report.closed).Nodup := by
  have hsub := reports_closed_sublist .start (tokensBy reps p)
  rw [tokensBy, labels_eq] at hsub
  exact hsub.nodup List.nodup_range'

theorem exists_group {u k b : PyStr} {r : Report ℕ} (hx : x = u ++ 0x28 :: k)
    (hu : modeAfter .plain u = .plain) (hplain : modeAfter .plain x = .plain)
    (hb : modeAfter .plain b = .plain) (hopened : r.opened = u.length)
    (hclosed : r.closed = x.length + b.length)
    (hr : r ∈ reports .start (tokensBy (unboundedQuantifierPositions digits
      (x ++ (b ++ ([0x29] ++ z)))) (x ++ (b ++ ([0x29] ++ z))))) :
    ∃ a body j e, tokensBy (unboundedQuantifierPositions digits (x ++ (b ++ ([0x29] ++ z))))
        (x ++ (b ++ ([0x29] ++ z))) =
          a ++ (r.opened, .opens) :: (body ++ (r.closed, .closes) :: (j, .rep) :: e) ∧
      Balanced body ∧ r.alternation = ownBar 0 body ∧ r.nested = hasRep body ∧
      a.map Prod.snd ++ [.opens] ++ (body.map Prod.snd).take k.length =
        tokensBefore digits (b ++ ([0x29] ++ z)) .plain x ∧
      body.map Prod.snd = tokensBefore digits (b ++ ([0x29] ++ z)) .plain k ++
        tokensBefore digits ([0x29] ++ z) .plain b ∧
      .rep :: e.map Prod.snd = tokens digits z := by
  obtain ⟨a, body, j, e, hsplit, hbal, hbar, hrep⟩ := mem_reports_start_iff.1 hr
  have hbefore := length_of_split hsplit
  have hclose := length_of_split (a := a ++ (r.opened, .opens) :: body)
    (t := (r.closed, .closes)) (b := (j, .rep) :: e) (by rw [hsplit]; simp)
  have hlength : body.length = k.length + b.length := by
    have hxlength := congrArg List.length hx
    simp only [List.length_append, List.length_cons] at hclose hxlength
    omega
  have hpart (t : PyStr) : tokensBefore digits t .plain x =
      tokensBefore digits (0x28 :: k ++ t) .plain u ++
        .opens :: tokensBefore digits t .plain k := by
    rw [hx, tokensBefore_append, hu]
    rfl
  have hcloses : tokens digits ([0x29] ++ z) = .closes :: tokens digits z := rfl
  have hmap : (tokensBy (unboundedQuantifierPositions digits (x ++ (b ++ ([0x29] ++ z))))
      (x ++ (b ++ ([0x29] ++ z)))).map Prod.snd = tokens digits (x ++ (b ++ ([0x29] ++ z))) :=
    map_snd_tokensBy
  rw [hsplit, tokens_split hplain hb, hpart, hcloses, List.map_append, List.map_cons,
    List.map_append, List.map_cons, List.map_cons, List.append_assoc, List.cons_append] at hmap
  obtain ⟨ha, hrest⟩ := List.append_inj hmap (by simp [hbefore, hopened])
  have hinside : body.map Prod.snd ++ .closes :: .rep :: e.map Prod.snd =
      (tokensBefore digits (b ++ ([0x29] ++ z)) .plain k ++
        tokensBefore digits ([0x29] ++ z) .plain b) ++ .closes :: tokens digits z := by
    rw [List.append_assoc]
    exact (List.cons.inj hrest).2
  obtain ⟨hbody, hbehind⟩ := List.append_inj hinside (by simp [hlength])
  refine ⟨a, body, j, e, hsplit, hbal, hbar, hrep, ?_, hbody, ?_⟩
  · have htake : (tokensBefore digits (b ++ ([0x29] ++ z)) .plain k ++
        tokensBefore digits ([0x29] ++ z) .plain b).take k.length =
          tokensBefore digits (b ++ ([0x29] ++ z)) .plain k := List.take_left' (by simp)
    rw [hbody, htake, hpart, ha, List.append_assoc]
    rfl
  · exact (List.cons.inj hbehind).2

theorem refuses_wrapped_iff {u k b : PyStr} (hk : ∀ c ∈ k, c ∉ metacharacters)
    (hx : x = u ++ 0x28 :: k) (hu : modeAfter .plain u = .plain) (hb : modeAfter .plain b = .plain)
    (h : RefusedAt digits (x ++ (b ++ ([0x29] ++ z))) (u.length, x.length + b.length)) :
    Refuses digits (x ++ ([0x28, 0x3f, 0x3a] ++ (b ++ ([0x29, 0x29] ++ z)))) ↔
      (∃ position ∈ unboundedQuantifierPositions digits (x ++ (b ++ ([0x29] ++ z))),
        u.length < position ∧ position < x.length + b.length) ∨
      ∃ other ≠ (u.length, x.length + b.length),
        RefusedAt digits (x ++ (b ++ ([0x29] ++ z))) other := by
  have hplain : modeAfter .plain x = .plain := by
    rw [hx, modeAfter_append, hu]
    refine modeAfter_of_notMem (s := 0x28 :: k) fun c hc => ?_
    rcases List.mem_cons.1 hc with rfl | hc
    · decide
    · exact ⟨fun h => hk c hc (h ▸ by decide), fun h => hk c hc (h ▸ by decide)⟩
  obtain ⟨r, hr, hspan, hbad⟩ := (refusedBy_iff quantify_unbounded).1 (refusedAt_iff.1 h)
  obtain ⟨hopened, hclosed⟩ := Prod.mk.inj hspan
  obtain ⟨a, body, j, e, hsplit, hbal, hbar, hrep, hbefore, hbody, hbehind⟩ :=
    exists_group hx hu hplain hb hopened hclosed hr
  have htake : (body.map Prod.snd).take k.length =
      tokensBefore digits (b ++ ([0x29] ++ z)) .plain k := by
    rw [hbody]
    exact List.take_left' (by simp)
  have hatoms : ∀ t ∈ body.take k.length, t.2 = .atom := by
    intro t ht
    have hmem : t.2 ∈ (body.map Prod.snd).take k.length := by
      rw [← List.map_take]
      exact List.mem_map_of_mem ht
    exact tokensBefore_opener hk _ _ (htake ▸ hmem)
  have hdrop : (body.drop k.length).map Prod.snd = tokensBefore digits ([0x29] ++ z) .plain b := by
    rw [List.map_drop, hbody]
    exact List.drop_left' (by simp)
  have hnested := hasRep_iff quantify_unbounded hsplit
  rw [← hrep] at hnested
  have hparts : body = body.take k.length ++ body.drop k.length := (List.take_append_drop _ _).symm
  rw [hparts] at hsplit hbal hrep
  rw [hasRep_append, hasRep_atoms hatoms, Bool.false_or] at hrep
  rw [List.append_assoc] at hsplit
  obtain ⟨before, behind, hthere, hwrapped⟩ := exists_reports_wrapped (a := a) (e := e) (j := j)
    (n := 0) (m := 0) (o := r.opened) (c := r.closed) (l := [(0, .atom), (0, .atom)]) hatoms
    (by simp) hbal
  rw [← hsplit] at hthere
  have htokens : tokens digits (x ++ ([0x28, 0x3f, 0x3a] ++ (b ++ ([0x29, 0x29] ++ z)))) =
      (a ++ (r.opened, Tok.opens) :: (body.take k.length ++ (0, Tok.opens) ::
        ([(0, Tok.atom), (0, Tok.atom)] ++ (body.drop k.length ++ (0, Tok.closes) ::
          (r.closed, Tok.closes) :: (j, Tok.rep) :: e)))).map Prod.snd := by
    rw [tokens_wrapped hk hx hplain hb, ← List.singleton_append, ← hbehind]
    change tokensBefore digits (b ++ ([0x29] ++ z)) .plain x ++ _ = _
    rw [← hbefore, ← List.map_take]
    change _ ++ (_ ++ (tokensBefore digits ([0x29] ++ z) .plain b ++ _)) = _
    rw [← hdrop]
    simp
  -- no other report is at the same closing bracket
  have hothers : ∀ r' ∈ before ++ behind, r'.closed ≠ r.closed := by
    have hnodup := nodup_closed (unboundedQuantifierPositions digits (x ++ (b ++ ([0x29] ++ z))))
      (x ++ (b ++ ([0x29] ++ z)))
    rw [hthere, List.map_append, List.map_cons, List.nodup_middle, List.nodup_cons,
      ← List.map_append] at hnodup
    intro r' hr' heq
    exact hnodup.1 (heq ▸ List.mem_map_of_mem hr')
  have hmem (r' : Report ℕ) (hr' : r' ∈ before ++ behind) : r' ∈ reports .start (tokensBy
      (unboundedQuantifierPositions digits (x ++ (b ++ ([0x29] ++ z))))
      (x ++ (b ++ ([0x29] ++ z)))) := by
    rw [hthere]
    rcases List.mem_append.1 hr' with hr' | hr'
    · exact List.mem_append_left _ hr'
    · exact List.mem_append_right _ (List.mem_cons_of_mem _ hr')
  rw [refuses_iff_tokens, htokens, refused_iff, hwrapped, ← hopened, ← hclosed, ← hnested, ← hrep]
  constructor
  · rintro ⟨r', hr', hbad'⟩
    rcases List.mem_append.1 hr' with hr' | hr'
    · have hr' := List.mem_append_left behind hr'
      refine Or.inr ⟨(r'.opened, r'.closed), fun h => hothers r' hr' (Prod.mk.inj h).2, ?_⟩
      exact refusedAt_iff.2 ((refusedBy_iff quantify_unbounded).2 ⟨r', hmem r' hr', rfl, hbad'⟩)
    · rcases List.mem_cons.1 hr' with rfl | hr'
      · exact Or.inl (by simpa [Report.bad] using hbad')
      · have hr' := List.mem_append_right before hr'
        refine Or.inr ⟨(r'.opened, r'.closed), fun h => hothers r' hr' (Prod.mk.inj h).2, ?_⟩
        exact refusedAt_iff.2 ((refusedBy_iff quantify_unbounded).2 ⟨r', hmem r' hr', rfl, hbad'⟩)
  · rintro (hin | ⟨⟨o, c⟩, hne, hother⟩)
    · exact ⟨_, List.mem_append_right _ List.mem_cons_self, by simp [Report.bad, hin]⟩
    · obtain ⟨r', hr', heq, hbad'⟩ := (refusedBy_iff quantify_unbounded).1 (refusedAt_iff.1 hother)
      rw [hthere] at hr'
      refine ⟨r', ?_, hbad'⟩
      rcases List.mem_append.1 hr' with hr' | hr'
      · exact List.mem_append_left _ hr'
      · rcases List.mem_cons.1 hr' with rfl | hr'
        · exact absurd heq.symm hne
        · exact List.mem_append_right _ (List.mem_cons_of_mem _ hr')

theorem exists_brackets {o : ℕ} (h : (o, c) ∈ groupSpans p) :
    (∃ u s, p = u ++ 0x28 :: s ∧ u.length = o ∧ modeAfter .plain u = .plain) ∧
      ∃ w z, p = w ++ 0x29 :: z ∧ w.length = c ∧ modeAfter .plain w = .plain := by
  rw [groupSpans_eq [], mem_spans_iff] at h
  obtain ⟨a, b, e, hsplit, -⟩ := h
  have hclose : tokensBy [] p = (a ++ (o, .opens) :: b) ++ (c, .closes) :: e := by simp [hsplit]
  exact ⟨exists_bracket (fun v => tokOf_eq_opens) hsplit,
    exists_bracket (fun v => tokOf_eq_closes) hclose⟩

theorem respelled_wrapped {span : ℕ × ℕ} {opener : ℕ} (h : RefusedAt digits p span)
    (ha : (Respelling.wrapped opener).Applies p span) :
    Refuses digits ((Respelling.wrapped opener).apply p span) ↔
      (Respelling.wrapped opener).LeavesRefused digits p span := by
  obtain ⟨o, c⟩ := span
  obtain ⟨hstart, hopener, -⟩ := ha
  obtain ⟨⟨u, s, hopen, rfl, hu⟩, w, z, hclose, rfl, hw⟩ := exists_brackets h.1
  unfold bodyStart at hstart
  dsimp only at hstart
  have hk : (p.drop (u.length + 1)).take opener = s.take opener := by simp [hopen]
  have hkmeta := not_mem_metacharacters_of_isOpener (hk ▸ hopener)
  have hx : p.take (u.length + 1 + opener) = u ++ 0x28 :: s.take opener := by
    rw [hopen, List.append_cons, List.take_append, List.take_of_length_le (by simp)]
    simp
  have hwp : p.take w.length = w := by rw [hclose, List.take_left]
  have hsplit : w = p.take (u.length + 1 + opener) ++
      (p.drop (u.length + 1 + opener)).take (w.length - (u.length + 1 + opener)) := by
    rw [← List.take_add, Nat.add_sub_cancel' hstart, hwp]
  have hdrop : p.drop w.length = 0x29 :: z := by rw [hclose, List.drop_left]
  have happly : (Respelling.wrapped opener).apply p (u.length, w.length) =
      p.take (u.length + 1 + opener) ++ ([0x28, 0x3f, 0x3a] ++
        ((p.drop (u.length + 1 + opener)).take (w.length - (u.length + 1 + opener)) ++
          ([0x29, 0x29] ++ z))) := by
    simp [Respelling.apply, bodyStart, hdrop]
  rw [happly, Respelling.LeavesRefused]
  generalize p.take (u.length + 1 + opener) = x at hx hsplit ⊢
  generalize (p.drop (u.length + 1 + opener)).take (w.length - (u.length + 1 + opener)) = b
    at hsplit ⊢
  have hplain : modeAfter .plain x = .plain := by
    rw [hx, modeAfter_append, hu]
    refine modeAfter_of_notMem (s := 0x28 :: s.take opener) fun c hc => ?_
    rcases List.mem_cons.1 hc with rfl | hc
    · decide
    · exact ⟨fun h => hkmeta c hc (h ▸ by decide), fun h => hkmeta c hc (h ▸ by decide)⟩
  have hb : modeAfter .plain b = .plain := by
    rwa [hsplit, modeAfter_append, hplain] at hw
  have hp : p = x ++ (b ++ ([0x29] ++ z)) := by
    rw [hclose, hsplit, List.append_assoc]
    rfl
  have hlength : w.length = x.length + b.length := by rw [hsplit, List.length_append]
  rw [hp, hlength] at h
  rw [hp, hlength]
  exact refuses_wrapped_iff hkmeta hx hu hb h

theorem respelled_optional {span : ℕ × ℕ} {position : ℕ}
    (ha : (Respelling.optional position).Applies p span) :
    Refuses digits ((Respelling.optional position).apply p span) ↔
      (Respelling.optional position).LeavesRefused digits p span := by
  obtain ⟨-, -, hscan, hfive⟩ := ha
  obtain ⟨x, s, hx, rfl, hplain, -⟩ := mem_scan_iff.1 hscan
  have hdrop : p.drop x.length = [0x7b, 0x30, 0x2c, 0x31, 0x7d] ++ p.drop (x.length + 5) := by
    rw [← hfive, ← List.drop_drop, List.take_append_drop]
  have hp : p = x ++ ([0x7b, 0x30, 0x2c, 0x31, 0x7d] ++ p.drop (x.length + 5)) := by
    rw [← hdrop, hx, List.drop_left]
  have htake : p.take x.length = x := by rw [hx, List.take_left]
  rw [Respelling.apply, htake, Respelling.LeavesRefused]
  generalize p.drop (x.length + 5) = z at hp ⊢
  rw [hp]
  exact refuses_optional_iff hplain

theorem respelled_atLeastOnce {span : ℕ × ℕ} (h : RefusedAt digits p span)
    (ha : Respelling.atLeastOnce.Applies p span) :
    Refuses digits (Respelling.atLeastOnce.apply p span) := by
  obtain ⟨o, c⟩ := span
  obtain ⟨-, w, s, hclose, rfl, hw⟩ := exists_brackets h.1
  have hdrop : p.drop (w.length + 1) = s := by simp [hclose]
  rw [Respelling.Applies, hdrop] at ha
  obtain ⟨z, rfl⟩ : ∃ z, s = 0x2b :: z := by
    rcases s with _ | ⟨d, z⟩
    · cases ha
    · exact ⟨z, by rw [Option.some.inj ha]⟩
  have happly : Respelling.atLeastOnce.apply p (o, w.length) =
      (w ++ [0x29]) ++ ([0x7b, 0x31, 0x2c, 0x7d] ++ z) := by
    have htake : p.take (w.length + 1) = w ++ [0x29] := by
      rw [hclose, List.append_cons]
      exact List.take_left' (by simp)
    have hdrop' : p.drop (w.length + 2) = z := by
      rw [← List.drop_drop, hclose, List.drop_left]
      rfl
    simp [Respelling.apply, htake, hdrop']
  have hplain : modeAfter .plain (w ++ [0x29]) = .plain := by
    rw [modeAfter_append, hw]
    rfl
  have hp : p = (w ++ [0x29]) ++ ([0x2b] ++ z) := by
    rw [hclose, List.append_assoc]
    rfl
  rw [happly]
  exact refuses_atLeastOnce rfl hplain (hp ▸ refuses_iff.2 ⟨_, h⟩)

/-- A pattern that is refused for a repeated group is refused in another spelling if that
leaves it something to be refused for. -/
theorem respelled_refused_iff (digits : DecimalDigits) (pattern : PyStr) (span : ℕ × ℕ)
    (respelling : Respelling) (h : RefusedAt digits pattern span)
    (ha : respelling.Applies pattern span) :
    Refuses digits (respelling.apply pattern span) ↔
      respelling.LeavesRefused digits pattern span := by
  cases respelling with
  | wrapped opener => exact respelled_wrapped h ha
  | optional position => exact respelled_optional ha
  | atLeastOnce => exact iff_of_true (respelled_atLeastOnce h ha) trivial

theorem nested_repetition_respelled :
    Refuses asciiDigits (Respelling.atLeastOnce.apply (pyStr "(a+)+") (0, 3)) ↔
      Respelling.atLeastOnce.LeavesRefused asciiDigits (pyStr "(a+)+") (0, 3) := by
  refine respelled_refused_iff asciiDigits _ _ _ ?_ ?_
  · unfold RefusedAt
    decide
  · unfold Respelling.Applies
    decide

/-- `(?:a|b)+` and `(?:a{0,1})+` are refused, `(?:(?:a|b))+` and `(?:a?)+` are not. -/
theorem respelled_accepted :
    let alternation := pyStr "(?:a|b)+"
    let counted := pyStr "(?:a\x7b0,1\x7d)+"
    RefusedAt asciiDigits alternation (0, 6) ∧
      (Respelling.wrapped 2).Applies alternation (0, 6) ∧
      (Respelling.wrapped 2).apply alternation (0, 6) = pyStr "(?:(?:a|b))+" ∧
      ¬ Refuses asciiDigits ((Respelling.wrapped 2).apply alternation (0, 6)) ∧
      RefusedAt asciiDigits counted (0, 9) ∧ (Respelling.optional 4).Applies counted (0, 9) ∧
      (Respelling.optional 4).apply counted (0, 9) = pyStr "(?:a?)+" ∧
      ¬ Refuses asciiDigits ((Respelling.optional 4).apply counted (0, 9)) := by
  unfold RefusedAt Respelling.Applies Refuses
  decide +kernel

end IcebergSST.Backtracking
