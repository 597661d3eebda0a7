import Mathlib.Algebra.Order.Group.Defs
import Mathlib.Algebra.Order.Group.Int
import Mathlib.Data.List.Count
import Mathlib.Data.List.TakeWhile
import Mathlib.Tactic

/-!
# Budgets over a window of time

A budget is asked at one instant and grants at a later one; in between others may be served.
A sliding log keeps the instants at which what it granted was asked, and drops from its front
what is a window old. A counter counts from its first use and lapses a window later. Neither
is asked in the order it serves. Still no interval shorter than the window holds more whole
grants than the bound of the log, or twice the bound of the counter.
-/

namespace RateWindow

structure Permit (τ : Type*) where
  asked : τ
  made : τ
  deriving DecidableEq, Repr

section Order

variable {τ : Type*} [LinearOrder τ] {clock read now a b : τ} {grants grants' : List (Permit τ)}
  {g : Permit τ}

/-- The grant lies wholly between the two instants. -/
def Permit.within (a b : τ) (g : Permit τ) : Bool := a ≤ g.asked && g.made ≤ b

theorem Permit.within_iff : g.within a b ↔ a ≤ g.asked ∧ g.made ≤ b := by
  simp [within]

/-- Grants in the order they were made, up to an instant. -/
structure Ordered (clock : τ) (grants : List (Permit τ)) : Prop where
  asked : ∀ g ∈ grants, g.asked ≤ g.made
  past : ∀ g ∈ grants, g.made ≤ clock
  sorted : grants.Pairwise fun g g' => g.made ≤ g'.made

theorem Ordered.nil : Ordered clock [] where
  asked := fun _ h => by cases h
  past := fun _ h => by cases h
  sorted := List.Pairwise.nil

theorem Ordered.later (h : Ordered clock grants) (hle : clock ≤ now) : Ordered now grants :=
  ⟨h.asked, fun g hg => (h.past g hg).trans hle, h.sorted⟩

theorem Ordered.snoc (h : Ordered clock grants) (hle : clock ≤ now) (hread : read ≤ now) :
    Ordered now (grants ++ [⟨read, now⟩]) := by
  constructor
  · intro g hg
    rcases List.mem_append.1 hg with hg | hg
    · exact h.asked g hg
    · rwa [List.mem_singleton.1 hg]
  · intro g hg
    rcases List.mem_append.1 hg with hg | hg
    · exact (h.past g hg).trans hle
    · rw [List.mem_singleton.1 hg]
  · refine List.pairwise_append.2 ⟨h.sorted, List.pairwise_singleton _ _, ?_⟩
    intro g hg g' hg'
    rw [List.mem_singleton.1 hg']
    exact (h.past g hg).trans hle

theorem Ordered.right (h : Ordered clock (grants ++ grants')) : Ordered clock grants' where
  asked := fun g hg => h.asked g (List.mem_append_right grants hg)
  past := fun g hg => h.past g (List.mem_append_right grants hg)
  sorted := (List.pairwise_append.1 h.sorted).2.1

theorem Ordered.lt_made (h : Ordered clock grants) (hhead : ∀ g ∈ grants.head?, a < g.asked) :
    ∀ g ∈ grants, a < g.made := by
  intro g hg
  cases grants with
  | nil => cases hg
  | cons f rest =>
      have hfirst : a < f.made := (hhead f rfl).trans_le (h.asked f List.mem_cons_self)
      rcases List.mem_cons.1 hg with rfl | hg
      · exact hfirst
      · exact hfirst.trans_le ((List.pairwise_cons.1 h.sorted).1 g hg)

end Order

section Window

variable {τ : Type*} [AddCommGroup τ] [LinearOrder τ] {width clock read now : τ} {limit : ℤ}
  {bound : ℕ} {log : List τ} {grants : List (Permit τ)} {g : Permit τ}

/-- No interval shorter than `width` holds more than `bound` whole grants. -/
def Paced (width : τ) (bound : ℕ) (grants : List (Permit τ)) : Prop :=
  ∀ a b, b < a + width → grants.countP (Permit.within a b) ≤ bound

theorem Paced.nil : Paced width bound [] := fun _ _ _ => by simp

/-- One more grant is paced when every interval that holds it has room. -/
theorem Paced.snoc (h : Paced width bound grants)
    (hroom : ∀ a b, b < a + width → g.within a b → grants.countP (Permit.within a b) < bound) :
    Paced width bound (grants ++ [g]) := by
  intro a b hshort
  rw [List.countP_append, List.countP_singleton]
  split_ifs with hin
  · have := hroom a b hshort hin
    omega
  · simpa using h a b hshort

theorem countP_within_eq_zero [IsOrderedAddMonoid τ] {a b : τ}
    (hold : ∀ g ∈ grants, g.asked + width ≤ now) (hshort : b < a + width) (hb : now ≤ b) :
    grants.countP (Permit.within a b) = 0 := by
  refine List.countP_eq_zero.2 fun g hg hgin => ?_
  have ha := (Permit.within_iff.1 hgin).1
  have hlong : a + width ≤ b := (add_le_add_left ha width).trans ((hold g hg).trans hb)
  exact absurd hshort hlong.not_gt

/-- The front of the log is dropped as far as it is a window old. -/
def expire (width now : τ) (log : List τ) : List τ := log.dropWhile fun t => t ≤ now - width

def acquire (width now : τ) (limit : ℤ) (log : List τ) : Bool × List τ :=
  let kept := expire width now log
  if limit ≤ kept.length then (false, kept) else (true, kept ++ [now])

/-- The log holds the last grants, and what it dropped was a window old by then. -/
structure SlidingLog (width : τ) (bound : ℕ) (clock : τ) (log : List τ)
    (grants : List (Permit τ)) : Prop where
  ordered : Ordered clock grants
  split : ∃ dropped held, grants = dropped ++ held ∧ log = held.map Permit.asked ∧
    ∀ g ∈ dropped, g.asked + width ≤ clock
  paced : Paced width bound grants

theorem SlidingLog.nil : SlidingLog width bound clock [] [] where
  ordered := .nil
  split := ⟨[], [], rfl, rfl, fun _ h => by cases h⟩
  paced := .nil

theorem SlidingLog.later (h : SlidingLog width bound clock log grants) (hle : clock ≤ now) :
    SlidingLog width bound now log grants := by
  obtain ⟨dropped, held, hsplit, hlog, hold⟩ := h.split
  exact ⟨h.ordered.later hle, ⟨dropped, held, hsplit, hlog, fun g hg => (hold g hg).trans hle⟩,
    h.paced⟩

variable [IsOrderedAddMonoid τ]

theorem SlidingLog.expire (h : SlidingLog width bound clock log grants) (hle : clock ≤ now)
    (hread : read ≤ now) :
    ∃ dropped held, grants = dropped ++ held ∧
      RateWindow.expire width read log = held.map Permit.asked ∧
      (∀ g ∈ dropped, g.asked + width ≤ now) ∧ ∀ g ∈ held.head?, read - width < g.asked := by
  obtain ⟨dropped, held, rfl, rfl, hold⟩ := h.split
  refine ⟨dropped ++ held.takeWhile fun g => g.asked ≤ read - width,
    held.dropWhile fun g => g.asked ≤ read - width, ?_, ?_, ?_, ?_⟩
  · rw [List.append_assoc, List.takeWhile_append_dropWhile]
  · rw [RateWindow.expire, List.dropWhile_map]
    rfl
  · intro g hg
    rcases List.mem_append.1 hg with hg | hg
    · exact (hold g hg).trans hle
    · have hpast : g.asked ≤ read - width := by simpa using List.mem_takeWhile_imp hg
      exact (le_sub_iff_add_le.1 hpast).trans hread
  · intro g hg
    have hnot := List.head?_dropWhile_not (fun g : Permit τ => decide (g.asked ≤ read - width)) held
    rw [Option.mem_def.1 hg] at hnot
    simpa using hnot

/-- The log refuses only with its limit of grants made later than a window before the reading. -/
theorem SlidingLog.refused (h : SlidingLog width bound clock log grants) (hle : clock ≤ now)
    (hread : read ≤ now) (hno : (acquire width read limit log).1 = false) :
    limit ≤ grants.countP fun g => read - width < g.made := by
  obtain ⟨dropped, held, hsplit, hkept, -, hhead⟩ := h.expire hle hread
  have hfull : limit ≤ held.length := by
    by_contra hroom
    simp [RateWindow.acquire, hkept, hroom] at hno
  have hordered := h.ordered
  rw [hsplit] at hordered
  have hmade : ∀ g ∈ held, read - width < g.made := hordered.right.lt_made hhead
  have hall : held.countP (fun g => read - width < g.made) = held.length :=
    List.countP_eq_length.2 fun g hg => by simpa using hmade g hg
  rw [hsplit, List.countP_append, hall]
  push_cast
  omega

theorem SlidingLog.acquire (h : SlidingLog width bound clock log grants) (hle : clock ≤ now)
    (hread : read ≤ now) (hlimit : limit ≤ bound) :
    SlidingLog width bound now (RateWindow.acquire width read limit log).2
      (if (RateWindow.acquire width read limit log).1 then grants ++ [⟨read, now⟩]
        else grants) := by
  obtain ⟨dropped, held, hsplit, hkept, hold, -⟩ := h.expire hle hread
  simp only [RateWindow.acquire, hkept, List.length_map]
  by_cases hfull : limit ≤ held.length
  · simp only [hfull, if_true, Bool.false_eq_true, if_false]
    exact ⟨h.ordered.later hle, ⟨dropped, held, hsplit, rfl, hold⟩, h.paced⟩
  · simp only [hfull, if_false, if_true]
    refine ⟨h.ordered.snoc hle hread, ⟨dropped, held ++ [⟨read, now⟩], ?_, ?_, hold⟩, ?_⟩
    · rw [hsplit, List.append_assoc]
    · rw [List.map_append]
      rfl
    · refine h.paced.snoc fun a b hshort hin => ?_
      -- what was dropped was asked before an interval that holds this grant begins
      obtain ⟨-, hb⟩ := Permit.within_iff.1 hin
      have hout : dropped.countP (Permit.within a b) = 0 :=
        countP_within_eq_zero hold hshort hb
      have hheld : held.countP (Permit.within a b) ≤ held.length := List.countP_le_length
      rw [hsplit, List.countP_append, hout]
      omega

omit [AddCommGroup τ] [LinearOrder τ] [IsOrderedAddMonoid τ] in
theorem countP_le_add {p q r : Permit τ → Bool} {grants : List (Permit τ)}
    (h : ∀ g ∈ grants, p g → q g ∨ r g) :
    grants.countP p ≤ grants.countP q + grants.countP r := by
  induction grants with
  | nil => simp
  | cons g grants ih =>
      have hrest := ih fun g' hg' => h g' (List.mem_cons_of_mem _ hg')
      have hfirst := h g List.mem_cons_self
      simp only [List.countP_cons]
      split_ifs <;> first | omega | simp_all

structure Counter (τ : Type*) where
  count : ℕ
  expiresAt : τ
  deriving DecidableEq, Repr

/-- The first use of a counter, or of one that lapsed, says when it lapses. -/
def incr (width now : τ) : Option (Counter τ) → Counter τ
  | none => ⟨1, now + width⟩
  | some c => if c.expiresAt ≤ now then ⟨1, now + width⟩ else ⟨c.count + 1, c.expiresAt⟩

/-- The life of a counter among all grants. It begins a window before it ends, and an interval
shorter than the window reaches back no further than into the life before. -/
structure Life (width : τ) (bound : ℕ) (expiresAt : τ) (grants : List (Permit τ)) : Prop where
  made : ∀ g ∈ grants, g.made < expiresAt
  current : (grants.countP fun g => expiresAt ≤ g.made + width) ≤ bound
  before : ∀ a, expiresAt < a + width + width →
    (grants.countP fun g => a ≤ g.made && g.made + width < expiresAt) ≤ bound

structure LapsingCounter (width : τ) (bound : ℕ) (clock : τ) (c : Option (Counter τ))
    (grants : List (Permit τ)) : Prop where
  ordered : Ordered clock grants
  unused : c = none → grants = []
  life : ∀ c' ∈ c, Life width bound c'.expiresAt grants
  counted : ∀ c' ∈ c, (grants.countP fun g => c'.expiresAt ≤ g.made + width) ≤ c'.count
  ahead : ∀ c' ∈ c, c'.expiresAt ≤ clock + width
  paced : Paced width (2 * bound) grants

variable {c : Option (Counter τ)}

omit [IsOrderedAddMonoid τ] in
theorem LapsingCounter.nil : LapsingCounter width bound clock none [] where
  ordered := .nil
  unused := fun _ => rfl
  life := fun _ h => by cases h
  counted := fun _ h => by cases h
  ahead := fun _ h => by cases h
  paced := .nil

theorem LapsingCounter.later (h : LapsingCounter width bound clock c grants)
    (hle : clock ≤ now) : LapsingCounter width bound now c grants :=
  ⟨h.ordered.later hle, h.unused, h.life, h.counted,
    fun c' hc => (h.ahead c' hc).trans (add_le_add_left hle width), h.paced⟩

theorem LapsingCounter.incr (h : LapsingCounter width bound clock c grants) (hle : clock ≤ now)
    (hwidth : 0 < width) :
    Life width bound (RateWindow.incr width now c).expiresAt grants ∧
      (grants.countP fun g => (RateWindow.incr width now c).expiresAt ≤ g.made + width) <
        (RateWindow.incr width now c).count ∧
      now < (RateWindow.incr width now c).expiresAt ∧
      (RateWindow.incr width now c).expiresAt ≤ now + width := by
  have hahead : now < now + width := lt_add_of_pos_right now hwidth
  cases hc : c with
  | none =>
      rw [h.unused hc]
      refine ⟨⟨?_, ?_, ?_⟩, Nat.zero_lt_one, hahead, le_rfl⟩
      · exact fun _ hg => by cases hg
      · exact Nat.zero_le _
      · exact fun _ _ => Nat.zero_le _
  | some c' =>
      have hlife := h.life c' hc
      simp only [RateWindow.incr]
      split_ifs with hlapsed
      · -- all grants were made in earlier lives
        have hnone : (grants.countP fun g => now + width ≤ g.made + width) = 0 := by
          refine List.countP_eq_zero.2 fun g hg hlate => ?_
          have hmade := (hlife.made g hg).trans_le hlapsed
          simp only [add_le_add_iff_right, decide_eq_true_eq] at hlate
          exact absurd hmade hlate.not_gt
        refine ⟨⟨?_, ?_, ?_⟩, ?_, hahead, le_rfl⟩
        · exact fun g hg => ((hlife.made g hg).trans_le hlapsed).trans hahead
        · simp only [hnone, zero_le]
        · intro a ha
          refine (List.countP_mono_left fun g _ hg => ?_).trans hlife.current
          simp only [Bool.and_eq_true, decide_eq_true_eq] at hg ⊢
          have hreach : now < a + width := by simpa using ha
          exact (hlapsed.trans hreach.le).trans (add_le_add_left hg.1 width)
        · simp only [hnone, zero_lt_one]
      · exact ⟨hlife, Nat.lt_succ_of_le (h.counted c' hc), not_le.1 hlapsed,
          (h.ahead c' hc).trans (add_le_add_left hle width)⟩

theorem LapsingCounter.refused (h : LapsingCounter width bound clock c grants)
    (hle : clock ≤ now) (hwidth : 0 < width) :
    LapsingCounter width bound now (some (RateWindow.incr width now c)) grants := by
  obtain ⟨hlife, hcounted, -, hahead⟩ := h.incr hle hwidth
  refine ⟨h.ordered.later hle, nofun, ?_, ?_, ?_, h.paced⟩
  · rintro _ ⟨⟩
    exact hlife
  · rintro _ ⟨⟩
    exact hcounted.le
  · rintro _ ⟨⟩
    exact hahead

theorem LapsingCounter.granted (h : LapsingCounter width bound clock c grants)
    (hle : clock ≤ now) (hread : read ≤ now) (hwidth : 0 < width)
    (hroom : (RateWindow.incr width now c).count ≤ bound) :
    LapsingCounter width bound now (some (RateWindow.incr width now c))
      (grants ++ [⟨read, now⟩]) := by
  obtain ⟨hlife, hcounted, hnow, hahead⟩ := h.incr hle hwidth
  set c' := RateWindow.incr width now c
  have hcount : (grants ++ [(⟨read, now⟩ : Permit τ)]).countP
      (fun g => c'.expiresAt ≤ g.made + width) ≤ c'.count := by
    rw [List.countP_append, List.countP_singleton]
    split_ifs <;> omega
  refine ⟨h.ordered.snoc hle hread, nofun, ?_, ?_, ?_, ?_⟩
  · rintro _ ⟨⟩
    refine ⟨?_, hcount.trans hroom, ?_⟩
    · intro g hg
      rcases List.mem_append.1 hg with hg | hg
      · exact hlife.made g hg
      · rwa [List.mem_singleton.1 hg]
    · intro a ha
      have hnew : ¬ now + width < c'.expiresAt := hahead.not_gt
      rw [List.countP_append, List.countP_singleton]
      simpa [hnew] using hlife.before a ha
  · rintro _ ⟨⟩
    exact hcount
  · rintro _ ⟨⟩
    exact hahead
  · refine h.paced.snoc fun a b hshort hin => ?_
    -- an interval that holds this grant reaches no further than into the life before
    obtain ⟨-, hb⟩ := Permit.within_iff.1 hin
    have hreach : c'.expiresAt < a + width + width :=
      hahead.trans_lt (add_lt_add_left (hb.trans_lt hshort) width)
    have hsplit : grants.countP (Permit.within a b) ≤
        (grants.countP fun g => c'.expiresAt ≤ g.made + width) +
          grants.countP fun g => a ≤ g.made && g.made + width < c'.expiresAt := by
      refine countP_le_add fun g hg hgin => ?_
      have ha : a ≤ g.made := (Permit.within_iff.1 hgin).1.trans (h.ordered.asked g hg)
      simpa [ha] using le_or_gt c'.expiresAt (g.made + width)
    have hbefore := hlife.before a hreach
    omega

end Window

end RateWindow
