import IcebergSST.Backtracking
import IcebergSST.Library.Brackets

/-!
# The check, by its tokens

The positions that the check works on are those of a list of tokens, one for each character,
and the groups that it refuses are the bad reports of that list.
-/

namespace IcebergSST.Backtracking

open Brackets

inductive Mode
  | plain
  | escaped
  | classStart
  | classNegated
  | members
  | memberEscaped
  deriving DecidableEq

def Mode.member (c : ℕ) : Mode := if c = 0x5c then .memberEscaped else .members

def Mode.next : Mode → ℕ → Mode
  | .plain, c => if c = 0x5c then .escaped else if c = 0x5b then .classStart else .plain
  | .escaped, _ => .plain
  | .classStart, c =>
      if c = 0x5e then .classNegated else if c = 0x5d then .members else .member c
  | .classNegated, c => if c = 0x5d then .members else .member c
  | .members, c => if c = 0x5d then .plain else .member c
  | .memberEscaped, _ => .members

def modeAfter (m : Mode) (s : PyStr) : Mode := s.foldl Mode.next m

/-- A character that the scanner does not skip. -/
def Mode.sees (m : Mode) (c : ℕ) : Option ℕ :=
  if m = .plain ∧ c ≠ 0x5c ∧ c ≠ 0x5b then some c else none

def visible : Mode → PyStr → List (Option ℕ)
  | _, [] => []
  | m, c :: s => m.sees c :: visible (m.next c) s

def entries : ℕ → List (Option ℕ) → List (ℕ × ℕ)
  | _, [] => []
  | i, none :: vs => entries (i + 1) vs
  | i, some c :: vs => (i, c) :: entries (i + 1) vs

def Mode.resume : Mode → ℕ → PyStr → ℕ
  | .plain, index, _ => index
  | .escaped, index, _ => index + 1
  | .classStart, index, s => skipCharacterClass index s
  | .classNegated, index, s => skipLiteralClose index s
  | .members, index, s => skipMembers index s
  | .memberEscaped, index, [] => index + 2
  | .memberEscaped, index, _ :: s => skipMembers (index + 1) s

variable {digits : DecimalDigits} {m : Mode} {c index i : ℕ} {s x y p : PyStr}

theorem lt_skipMembers (index : ℕ) (s : PyStr) : index < skipMembers index s := by
  fun_induction skipMembers index s <;> omega

theorem lt_skipLiteralClose (index : ℕ) (s : PyStr) : index < skipLiteralClose index s := by
  unfold skipLiteralClose
  split
  · exact lt_skipMembers _ _
  · split_ifs
    · exact (Nat.lt_succ_self _).trans (lt_skipMembers _ _)
    · exact lt_skipMembers _ _

theorem lt_skipCharacterClass (index : ℕ) (s : PyStr) : index < skipCharacterClass index s := by
  unfold skipCharacterClass
  split
  · exact lt_skipLiteralClose _ _
  · split_ifs
    · exact (Nat.lt_succ_self _).trans (lt_skipLiteralClose _ _)
    · exact lt_skipLiteralClose _ _

theorem lt_resume (h : m ≠ .plain) (index : ℕ) (s : PyStr) : index < m.resume index s := by
  cases m with
  | plain => exact absurd rfl h
  | escaped => exact Nat.lt_succ_self _
  | classStart => exact lt_skipCharacterClass _ _
  | classNegated => exact lt_skipLiteralClose _ _
  | members => exact lt_skipMembers _ _
  | memberEscaped =>
      cases s with
      | nil => exact Nat.lt_add_of_pos_right (by omega)
      | cons c s => exact (Nat.lt_succ_self _).trans (lt_skipMembers _ _)

theorem skipMembers_cons (index c : ℕ) (s : PyStr) :
    skipMembers index (c :: s) = (Mode.members.next c).resume (index + 1) s := by
  cases s with
  | nil =>
      simp only [skipMembers, Mode.next, Mode.member]
      split_ifs <;> rfl
  | cons d s =>
      simp only [skipMembers, Mode.next, Mode.member]
      split_ifs <;> rfl

theorem skipMembers_cons_of_ne (h : c ≠ 0x5d) (index : ℕ) (s : PyStr) :
    skipMembers index (c :: s) = (Mode.member c).resume (index + 1) s := by
  rw [skipMembers_cons, Mode.next, if_neg h]

theorem skipLiteralClose_cons (index c : ℕ) (s : PyStr) :
    skipLiteralClose index (c :: s) = (Mode.classNegated.next c).resume (index + 1) s := by
  rw [skipLiteralClose, Mode.next]
  split_ifs with hclose
  · rfl
  · exact skipMembers_cons_of_ne hclose index s

theorem resume_cons (h : m ≠ .plain) (index c : ℕ) (s : PyStr) :
    m.resume index (c :: s) = (m.next c).resume (index + 1) s := by
  cases m with
  | plain => exact absurd rfl h
  | escaped => rfl
  | members => exact skipMembers_cons index c s
  | memberEscaped => rfl
  | classNegated => exact skipLiteralClose_cons index c s
  | classStart =>
      rw [Mode.resume, skipCharacterClass, Mode.next]
      by_cases hneg : c = 0x5e
      · rw [if_pos hneg, if_pos hneg]
        rfl
      · rw [if_neg hneg, if_neg hneg]
        exact skipLiteralClose_cons index c s

theorem scanFrom_eq (m : Mode) (index : ℕ) (s : PyStr) :
    scanFrom index (m.resume index s) s = entries index (visible m s) := by
  induction s generalizing m index with
  | nil => rfl
  | cons c s ih =>
      by_cases hplain : m = .plain
      · subst hplain
        rw [scanFrom, visible, Mode.resume, if_neg (lt_irrefl index), Mode.next]
        by_cases hescape : c = 0x5c
        · subst hescape
          exact ih .escaped (index + 1)
        · rw [if_neg hescape, if_neg hescape]
          by_cases hclass : c = 0x5b
          · subst hclass
            exact ih .classStart (index + 1)
          · rw [if_neg hclass, if_neg hclass, Mode.sees, if_pos ⟨rfl, hescape, hclass⟩]
            exact congrArg _ (ih .plain (index + 1))
      · have hnone : m.sees c = none := if_neg fun h => hplain h.1
        rw [scanFrom, if_pos (lt_resume hplain index _), resume_cons hplain, ih, visible, hnone,
          entries]

theorem scan_eq (pattern : PyStr) : scan pattern = entries 0 (visible .plain pattern) :=
  scanFrom_eq .plain 0 pattern

def tokOf (rep : Bool) : Option ℕ → Tok
  | none => .atom
  | some c =>
      if c = 0x28 then .opens
      else if c = 0x29 then .closes
      else if c = 0x7c then .bar
      else if rep then .rep else .atom

/-- The tokens from a position on, where the repetitions stand at the positions of `reps`. -/
def labelled (reps : List ℕ) : ℕ → List (Option ℕ) → List (ℕ × Tok)
  | _, [] => []
  | i, v :: vs => (i, tokOf (i ∈ reps) v) :: labelled reps (i + 1) vs

def tokensBy (reps : List ℕ) (pattern : PyStr) : List (ℕ × Tok) :=
  labelled reps 0 (visible .plain pattern)

variable {reps : List ℕ} {vs : List (Option ℕ)} {a b e ts : List (ℕ × Tok)} {o j : ℕ}

theorem groupSpansFrom_entries (reps stack : List ℕ) (i : ℕ) (vs : List (Option ℕ)) :
    groupSpansFrom stack (entries i vs) = spans stack (labelled reps i vs) := by
  induction vs generalizing stack i with
  | nil =>
      rw [entries, labelled, groupSpansFrom, spans]
  | cons v vs ih =>
      rcases v with _ | c
      · rw [entries, labelled, tokOf, ih]
        cases stack <;> rfl
      · rw [entries, labelled, tokOf, groupSpansFrom.eq_def]
        dsimp only
        split_ifs with hopens hcloses hbar hrep
        · exact ih (i :: stack) (i + 1)
        · cases stack with
          | nil => exact ih [] (i + 1)
          | cons o stack => exact congrArg _ (ih stack (i + 1))
        all_goals
          rw [ih]
          cases stack <;> rfl

theorem groupSpans_eq (reps : List ℕ) (pattern : PyStr) :
    groupSpans pattern = spans [] (tokensBy reps pattern) := by
  rw [groupSpans, scan_eq]
  exact groupSpansFrom_entries reps [] 0 _

theorem hasOwnAlternationFrom_entries (reps : List ℕ) (o c : ℕ) (depth : ℤ) (i : ℕ)
    (vs : List (Option ℕ)) : hasOwnAlternationFrom o c depth (entries i vs) =
      ownBar depth ((labelled reps i vs).filter fun t => o < t.1 ∧ t.1 < c) := by
  induction vs generalizing depth i with
  | nil => rfl
  | cons v vs ih =>
      rw [labelled, List.filter_cons]
      by_cases hin : o < i ∧ i < c
      · rw [if_pos (decide_eq_true hin)]
        rcases v with _ | d
        · rw [entries, ih]
          rfl
        · rw [entries, tokOf, hasOwnAlternationFrom, if_neg (not_not.2 hin)]
          split_ifs with hopens hcloses hzero hbar hrep hbar hrep
          · rw [ih]
            rfl
          · rw [ih]
            rfl
          · simp [ownBar, hzero.2]
          · exact absurd hzero.1 hbar
          · exact absurd hzero.1 hbar
          · have hdepth : depth ≠ 0 := fun h => hzero ⟨hbar, h⟩
            rw [ih]
            simp [ownBar, hdepth]
          · rw [ih]
            rfl
          · rw [ih]
            rfl
      · rw [if_neg (by simpa using hin)]
        rcases v with _ | d
        · rw [entries, ih]
        · rw [entries, hasOwnAlternationFrom, if_pos hin, ih]

theorem labels_eq (reps : List ℕ) (i : ℕ) (vs : List (Option ℕ)) :
    (labelled reps i vs).map Prod.fst = List.range' i vs.length := by
  induction vs generalizing i with
  | nil => rfl
  | cons v vs ih => rw [labelled, List.map_cons, ih, List.length_cons, List.range'_succ]

/-- A group among the tokens: the positions of what stands before it, in it and after it. -/
structure Located (a : List (ℕ × Tok)) (o : ℕ) (b : List (ℕ × Tok)) (c : ℕ)
    (e : List (ℕ × Tok)) : Prop where
  before : ∀ t ∈ a, t.1 < o
  inside : ∀ t ∈ b, o < t.1 ∧ t.1 < c
  order : o < c
  behind : ∀ t ∈ e, c < t.1

theorem located (h : labelled reps i vs = a ++ (o, .opens) :: (b ++ (c, .closes) :: e)) :
    Located a o b c e := by
  have hsorted : ((a ++ (o, Tok.opens) :: (b ++ (c, Tok.closes) :: e)).map Prod.fst).Pairwise
      (· < ·) := by
    rw [← h, labels_eq]
    exact List.pairwise_lt_range'
  rw [List.pairwise_map, List.pairwise_append, List.pairwise_cons, List.pairwise_append,
    List.pairwise_cons] at hsorted
  obtain ⟨-, ⟨hopen, -, ⟨hbehind, -⟩, hbody⟩, hbefore⟩ := hsorted
  refine ⟨fun t ht => ?_, fun t ht => ⟨?_, ?_⟩, ?_, hbehind⟩
  · exact hbefore t ht _ List.mem_cons_self
  · exact hopen t (List.mem_append_left _ ht)
  · exact hbody t ht _ List.mem_cons_self
  · exact hopen (c, .closes) (List.mem_append_right _ List.mem_cons_self)

theorem Located.filter_eq (h : Located a o b c e) :
    (a ++ (o, .opens) :: (b ++ (c, .closes) :: e)).filter (fun t => o < t.1 ∧ t.1 < c) = b := by
  have hbefore : a.filter (fun t => o < t.1 ∧ t.1 < c) = [] := by
    refine List.filter_eq_nil_iff.2 fun t ht => ?_
    have := h.before t ht
    simp only [decide_eq_true_eq]
    omega
  have hinside : b.filter (fun t => o < t.1 ∧ t.1 < c) = b :=
    List.filter_eq_self.2 fun t ht => decide_eq_true (h.inside t ht)
  have hbehind : e.filter (fun t => o < t.1 ∧ t.1 < c) = [] := by
    refine List.filter_eq_nil_iff.2 fun t ht => ?_
    have := h.behind t ht
    simp only [decide_eq_true_eq]
    omega
  rw [List.filter_append, List.filter_cons_of_neg (by simp), List.filter_append,
    List.filter_cons_of_neg (by simp), hbefore, hinside, hbehind, List.nil_append, List.append_nil]

theorem hasOwnAlternation_eq (h : tokensBy reps p = a ++ (o, .opens) :: (b ++ (c, .closes) :: e)) :
    hasOwnAlternation p o c = ownBar 0 b := by
  rw [hasOwnAlternation, scan_eq, hasOwnAlternationFrom_entries reps, ← tokensBy, h,
    (located h).filter_eq]

/-- A group with one of the quantifiers right after it, and one of them or a bar of its own in
it. -/
def RefusedBy (reps : List ℕ) (pattern : PyStr) (span : ℕ × ℕ) : Prop :=
  span ∈ groupSpans pattern ∧ span.2 + 1 ∈ reps ∧
    ((∃ position ∈ reps, span.1 < position ∧ position < span.2) ∨
      hasOwnAlternation pattern span.1 span.2)

/-- No position is one of a bracket or a bar. -/
def Quantify (reps : List ℕ) (pattern : PyStr) : Prop :=
  ∀ i ∈ reps, ∃ c, (visible .plain pattern)[i]? = some (some c) ∧ c ≠ 0x28 ∧ c ≠ 0x29 ∧ c ≠ 0x7c

theorem getElem?_labelled (reps : List ℕ) (i j : ℕ) (vs : List (Option ℕ)) :
    (labelled reps i vs)[j]? = vs[j]?.map fun v => (i + j, tokOf (i + j ∈ reps) v) := by
  induction vs generalizing i j with
  | nil => rfl
  | cons v vs ih =>
      cases j with
      | zero => rfl
      | succ j =>
          have hsum : i + 1 + j = i + (j + 1) := by omega
          rw [labelled, List.getElem?_cons_succ, ih, List.getElem?_cons_succ, hsum]

theorem length_of_split {t : ℕ × Tok} (h : tokensBy reps p = a ++ t :: b) : a.length = t.1 := by
  have hget : (tokensBy reps p)[a.length]? = some t := by
    rw [h, List.getElem?_append_right le_rfl, Nat.sub_self, List.getElem?_cons_zero]
  rw [tokensBy, getElem?_labelled, Nat.zero_add] at hget
  obtain ⟨v, -, rfl⟩ := Option.map_eq_some_iff.1 hget
  rfl

theorem mem_reps_iff (h : Quantify reps p) : (j, .rep) ∈ tokensBy reps p ↔ j ∈ reps := by
  rw [List.mem_iff_getElem?]
  constructor
  · rintro ⟨k, hk⟩
    rw [tokensBy, getElem?_labelled, Nat.zero_add] at hk
    obtain ⟨v, -, heq⟩ := Option.map_eq_some_iff.1 hk
    obtain ⟨rfl, htok⟩ := Prod.mk.inj heq
    by_contra hnot
    rcases v with _ | c
    · cases htok
    · simp only [tokOf, hnot, decide_false, Bool.false_eq_true, if_false] at htok
      split_ifs at htok
  · intro hj
    obtain ⟨c, hc, hopens, hcloses, hbar⟩ := h j hj
    refine ⟨j, ?_⟩
    rw [tokensBy, getElem?_labelled, hc, Nat.zero_add]
    simp [tokOf, hopens, hcloses, hbar, hj]

theorem append_of_mem_tokens (h : (j, .rep) ∈ tokensBy reps p) {u v : List (ℕ × Tok)}
    (hsplit : tokensBy reps p = u ++ v) (hlength : u.length = j) : ∃ w, v = (j, .rep) :: w := by
  obtain ⟨u', w, hw⟩ := List.append_of_mem h
  have hu' := length_of_split hw
  obtain ⟨-, rfl⟩ := List.append_inj (hsplit.symm.trans hw) (hlength.trans hu'.symm)
  exact ⟨w, rfl⟩

/-- A repetition in a group is one of the positions between its brackets. -/
theorem hasRep_iff (h : Quantify reps p)
    (hsplit : tokensBy reps p = a ++ (o, .opens) :: (b ++ (c, .closes) :: e)) :
    hasRep b ↔ ∃ position ∈ reps, o < position ∧ position < c := by
  have hloc := located hsplit
  simp only [hasRep, List.any_eq_true, decide_eq_true_eq, Prod.exists, exists_eq_right]
  constructor
  · rintro ⟨j, hj⟩
    exact ⟨j, (mem_reps_iff h).1 (hsplit ▸ by simp [hj]), hloc.inside _ hj⟩
  · rintro ⟨j, hj, hlow, hhigh⟩
    have hfilter : (j, Tok.rep) ∈ (tokensBy reps p).filter (fun t => o < t.1 ∧ t.1 < c) :=
      List.mem_filter.2 ⟨(mem_reps_iff h).2 hj, decide_eq_true ⟨hlow, hhigh⟩⟩
    rw [hsplit, hloc.filter_eq] at hfilter
    exact ⟨j, hfilter⟩

theorem refusedBy_iff (h : Quantify reps p) : RefusedBy reps p (o, c) ↔
    ∃ r ∈ reports .start (tokensBy reps p), (r.opened, r.closed) = (o, c) ∧ r.bad := by
  constructor
  · rintro ⟨hspan, hafter, hbad⟩
    rw [groupSpans_eq reps, mem_spans_iff] at hspan
    obtain ⟨a, b, e, hsplit, hb⟩ := hspan
    have hlength : (a ++ (o, Tok.opens) :: (b ++ [(c, Tok.closes)])).length = c + 1 := by
      have hclose : tokensBy reps p = (a ++ (o, .opens) :: b) ++ (c, .closes) :: e := by
        simp [hsplit]
      have := length_of_split hclose
      simp only [List.length_append, List.length_cons, List.length_nil] at this ⊢
      omega
    obtain ⟨w, rfl⟩ := append_of_mem_tokens ((mem_reps_iff h).2 hafter)
      (u := a ++ (o, .opens) :: (b ++ [(c, .closes)])) (v := e) (by simp [hsplit]) hlength
    refine ⟨⟨o, c, ownBar 0 b, hasRep b⟩,
      mem_reports_start_iff.2 ⟨a, b, c + 1, w, hsplit, hb, rfl, rfl⟩, rfl, ?_⟩
    rw [hasOwnAlternation_eq hsplit, ← hasRep_iff h hsplit] at hbad
    simpa [Report.bad] using hbad
  · rintro ⟨r, hr, heq, hbad⟩
    obtain ⟨rfl, rfl⟩ := Prod.mk.inj heq
    obtain ⟨a, b, j, e, hsplit, hb, hbar, hrep⟩ := mem_reports_start_iff.1 hr
    refine ⟨?_, ?_, ?_⟩
    · rw [groupSpans_eq reps, mem_spans_iff]
      exact ⟨a, b, _, hsplit, hb⟩
    · have hclose : tokensBy reps p =
          (a ++ (r.opened, .opens) :: b) ++ (r.closed, .closes) :: (j, .rep) :: e := by
            simp [hsplit]
      have hnext : tokensBy reps p =
          (a ++ (r.opened, .opens) :: (b ++ [(r.closed, .closes)])) ++ (j, .rep) :: e := by
        simp [hsplit]
      have hc := length_of_split hclose
      have hj := length_of_split hnext
      have hjc : j = r.closed + 1 := by
        simp only [List.length_append, List.length_cons, List.length_nil] at hc hj
        omega
      rw [← hjc]
      exact (mem_reps_iff h).1 (hsplit ▸ by simp)
    · rw [← hasRep_iff h hsplit, hasOwnAlternation_eq hsplit, ← hbar, ← hrep]
      simpa [Report.bad] using hbad

theorem refused_tokens_iff (h : Quantify reps p) :
    Refused ((tokensBy reps p).map Prod.snd) ↔ ∃ span, RefusedBy reps p span := by
  rw [refused_iff]
  constructor
  · rintro ⟨r, hr, hbad⟩
    exact ⟨(r.opened, r.closed), (refusedBy_iff h).2 ⟨r, hr, rfl, hbad⟩⟩
  · rintro ⟨⟨o, c⟩, hspan⟩
    obtain ⟨r, hr, -, hbad⟩ := (refusedBy_iff h).1 hspan
    exact ⟨r, hr, hbad⟩

@[simp] theorem modeAfter_nil : modeAfter m [] = m := rfl

@[simp] theorem modeAfter_cons : modeAfter m (c :: s) = modeAfter (m.next c) s := rfl

@[simp] theorem modeAfter_append : modeAfter m (x ++ y) = modeAfter (modeAfter m x) y :=
  List.foldl_append

theorem visible_append : visible m (x ++ y) = visible m x ++ visible (modeAfter m x) y := by
  induction x generalizing m with
  | nil => rfl
  | cons c x ih => rw [List.cons_append, visible, ih, visible, modeAfter_cons, List.cons_append]

@[simp] theorem length_visible : (visible m s).length = s.length := by
  induction s generalizing m with
  | nil => rfl
  | cons c s ih => rw [visible, List.length_cons, ih, List.length_cons]

theorem sees_eq_some {d : ℕ} : m.sees c = some d ↔ m = .plain ∧ c ≠ 0x5c ∧ c ≠ 0x5b ∧ c = d := by
  unfold Mode.sees
  split_ifs with h
  · simp [h]
  · simp only [false_iff]
    exact fun h' => h ⟨h'.1, h'.2.1, h'.2.2.1⟩

theorem getElem?_visible_eq {d : ℕ} : (visible .plain p)[i]? = some (some d) ↔
    ∃ x s, p = x ++ d :: s ∧ x.length = i ∧ modeAfter .plain x = .plain ∧ d ≠ 0x5c ∧ d ≠ 0x5b := by
  constructor
  · intro h
    have hi : i < p.length := by
      have := (List.getElem?_eq_some_iff.1 h).1
      rwa [length_visible] at this
    obtain ⟨c, s, hdrop⟩ := List.exists_cons_of_ne_nil (List.drop_eq_nil_iff.not.2 (not_le.2 hi))
    have hlength : (p.take i).length = i := List.length_take_of_le hi.le
    rw [← List.take_append_drop i p, visible_append, List.getElem?_append_right (by simp),
      length_visible, hlength, Nat.sub_self, hdrop, visible, List.getElem?_cons_zero,
      Option.some.injEq, sees_eq_some] at h
    obtain ⟨hplain, hescape, hclass, rfl⟩ := h
    exact ⟨p.take i, s, by rw [← hdrop, List.take_append_drop], hlength, hplain, hescape, hclass⟩
  · rintro ⟨x, s, rfl, rfl, hplain, hescape, hclass⟩
    rw [visible_append, List.getElem?_append_right (by simp), length_visible, Nat.sub_self,
      visible, List.getElem?_cons_zero, Option.some.injEq, sees_eq_some]
    exact ⟨hplain, hescape, hclass, rfl⟩

theorem mem_entries_iff : (j, c) ∈ entries i vs ↔ ∃ k, vs[k]? = some (some c) ∧ j = i + k := by
  induction vs generalizing i with
  | nil => simp [entries]
  | cons v vs ih =>
      have hsucc : (∃ k, (v :: vs)[k]? = some (some c) ∧ j = i + k) ↔
          v = some c ∧ j = i ∨ ∃ k, vs[k]? = some (some c) ∧ j = i + 1 + k := by
        constructor
        · rintro ⟨_ | k, hk, rfl⟩
          · exact Or.inl ⟨Option.some.inj hk, rfl⟩
          · exact Or.inr ⟨k, hk, by omega⟩
        · rintro (⟨rfl, rfl⟩ | ⟨k, hk, rfl⟩)
          · exact ⟨0, rfl, rfl⟩
          · exact ⟨k + 1, hk, by omega⟩
      rw [hsucc]
      rcases v with _ | d
      · rw [entries, ih]
        simp
      · rw [entries, List.mem_cons, ih]
        simp [eq_comm, and_comm]

theorem mem_scan_iff : (i, c) ∈ scan p ↔ ∃ x s, p = x ++ c :: s ∧ x.length = i ∧
    modeAfter .plain x = .plain ∧ c ≠ 0x5c ∧ c ≠ 0x5b := by
  rw [scan_eq, mem_entries_iff, ← getElem?_visible_eq]
  simp

theorem varies_cases (h : varies digits c s) :
    c = 0x2a ∨ c = 0x2b ∨ c = 0x7b ∧ braceVaries digits s := by
  simpa [varies, or_assoc] using h

theorem mem_unbounded_iff : i ∈ unboundedQuantifierPositions digits p ↔ ∃ x c s, p = x ++ c :: s ∧
    x.length = i ∧ modeAfter .plain x = .plain ∧ varies digits c s := by
  simp only [unboundedQuantifierPositions, List.mem_map, List.mem_filter, Prod.exists,
    exists_and_right, exists_eq_right]
  have hdrop (x s : PyStr) (c : ℕ) : (x ++ c :: s).drop (x.length + 1) = s := by simp
  constructor
  · rintro ⟨c, hscan, hvaries⟩
    obtain ⟨x, s, rfl, rfl, hplain, -⟩ := mem_scan_iff.1 hscan
    rw [hdrop] at hvaries
    exact ⟨x, c, s, rfl, rfl, hplain, hvaries⟩
  · rintro ⟨x, c, s, rfl, rfl, hplain, hvaries⟩
    refine ⟨c, mem_scan_iff.2 ⟨x, s, rfl, rfl, hplain, ?_, ?_⟩, by rwa [hdrop]⟩
    all_goals
      rcases varies_cases hvaries with rfl | rfl | ⟨rfl, -⟩ <;> decide

theorem quantify_unbounded : Quantify (unboundedQuantifierPositions digits p) p := by
  intro i hi
  obtain ⟨x, c, s, hp, hx, hplain, hvaries⟩ := mem_unbounded_iff.1 hi
  have hne : c ≠ 0x5c ∧ c ≠ 0x5b ∧ c ≠ 0x28 ∧ c ≠ 0x29 ∧ c ≠ 0x7c := by
    rcases varies_cases hvaries with rfl | rfl | ⟨rfl, -⟩ <;> decide
  exact ⟨c, getElem?_visible_eq.2 ⟨x, s, hp, hx, hplain, hne.1, hne.2.1⟩, hne.2.2⟩

theorem exists_bracket {tok : Tok} {d : ℕ}
    (htok : ∀ v, tokOf (i ∈ reps) v = tok → v = some d)
    (h : tokensBy reps p = a ++ (i, tok) :: b) : ∃ x s, p = x ++ d :: s ∧ x.length = i ∧
      modeAfter .plain x = .plain := by
  have hlength := length_of_split h
  have hget : (tokensBy reps p)[i]? = some (i, tok) := by
    rw [h, List.getElem?_append_right hlength.le, hlength, Nat.sub_self, List.getElem?_cons_zero]
  rw [tokensBy, getElem?_labelled, Nat.zero_add] at hget
  obtain ⟨v, hv, heq⟩ := Option.map_eq_some_iff.1 hget
  obtain rfl := htok v (Prod.mk.inj heq).2
  obtain ⟨x, s, hp, hx, hplain, -⟩ := getElem?_visible_eq.1 hv
  exact ⟨x, s, hp, hx, hplain⟩

theorem tokOf_eq_opens {rep : Bool} {v : Option ℕ} (h : tokOf rep v = .opens) : v = some 0x28 := by
  rcases v with _ | c
  · cases h
  · rw [tokOf] at h
    split_ifs at h with hc
    rw [hc]

theorem tokOf_eq_closes {rep : Bool} {v : Option ℕ} (h : tokOf rep v = .closes) :
    v = some 0x29 := by
  rcases v with _ | c
  · cases h
  · rw [tokOf] at h
    split_ifs at h with hopens hc
    rw [hc]

theorem followedByUnbounded_iff (h : (o, c) ∈ groupSpans p) :
    followedByUnbounded digits p c ↔ c + 1 ∈ unboundedQuantifierPositions digits p := by
  rw [groupSpans_eq [], mem_spans_iff] at h
  obtain ⟨a, b, e, hsplit, -⟩ := h
  have hclose : tokensBy [] p = (a ++ (o, .opens) :: b) ++ (c, .closes) :: e := by simp [hsplit]
  obtain ⟨x, s, rfl, rfl, hplain⟩ := exists_bracket (fun v => tokOf_eq_closes) hclose
  have hdrop : (x ++ 0x29 :: s).drop (x.length + 1) = s := by simp
  rw [followedByUnbounded, hdrop, mem_unbounded_iff]
  constructor
  · intro hvaries
    rcases s with _ | ⟨d, s⟩
    · cases hvaries
    · exact ⟨x ++ [0x29], d, s, by simp, by simp, by simp [hplain, Mode.next], hvaries⟩
  · rintro ⟨x', d, s', hp, hx', -, hvaries⟩
    have hsame : x ++ [0x29] ++ s = x' ++ d :: s' := by simpa using hp
    obtain ⟨-, rfl⟩ := List.append_inj hsame (by simp [hx'])
    exact hvaries

def RefusedAt (digits : DecimalDigits) (pattern : PyStr) (span : ℕ × ℕ) : Prop :=
  span ∈ groupSpans pattern ∧ checkGroup digits pattern span ≠ none

def Refuses (digits : DecimalDigits) (pattern : PyStr) : Prop :=
  assertNoCatastrophicBacktracking digits pattern ≠ .ok ()

theorem refuses_iff : Refuses digits p ↔ ∃ span, RefusedAt digits p span := by
  unfold Refuses assertNoCatastrophicBacktracking RefusedAt
  cases h : (groupSpans p).findSome? (checkGroup digits p) with
  | none =>
      rw [List.findSome?_eq_none_iff] at h
      simpa using fun o c hspan => h (o, c) hspan
  | some error =>
      obtain ⟨span, hspan, herror⟩ := List.exists_of_findSome?_eq_some h
      exact iff_of_true (by simp) ⟨span, hspan, by simp [herror]⟩

theorem refusedAt_iff {span : ℕ × ℕ} : RefusedAt digits p span ↔
    RefusedBy (unboundedQuantifierPositions digits p) p span := by
  refine and_congr_right fun hspan => ?_
  rw [← followedByUnbounded_iff hspan]
  unfold checkGroup
  by_cases hfollowed : followedByUnbounded digits p span.2
  · simp only [hfollowed, not_true_eq_false, if_false, true_and]
    by_cases hnested : (unboundedQuantifierPositions digits p).any
        fun position => span.1 < position && position < span.2
    · rw [if_pos hnested]
      exact iff_of_true (by simp) (Or.inl (by simpa using hnested))
    · rw [if_neg hnested]
      have hnone : ¬ ∃ position ∈ unboundedQuantifierPositions digits p,
          span.1 < position ∧ position < span.2 := fun h => hnested (by simpa using h)
      rw [or_iff_right hnone]
      split_ifs with hbar <;> simp [hbar]
  · simp [hfollowed]

end IcebergSST.Backtracking
