import IcebergSST.Datetimes
import IcebergSST.JiraWindows

/-!
# The created windows of a Jira project as text

A date is the number of its day, and an instant is a minute counted so that a day starts at
a multiple of 1440. The bounds of the windows are JQL literals. Dates end with the year 9999:
an addition that passes its last day fails, also the one whose result would be cut to the
last day of the project.
-/

namespace IcebergSST.JiraDates

open Calendar FixedWidth Jira

def maxOrdinal : ℕ := 3652059

def addDays (day days : ℕ) : Except String ℕ :=
  if day + days ≤ maxOrdinal then .ok (day + days) else .error "date value out of range"

def addMinute (t : ℕ) : Except String ℕ :=
  if (t + 1) / minutesOfDay ≤ maxOrdinal then .ok (t + 1) else .error "date value out of range"

/-- A calendar boundary as a JQL datetime literal. -/
def stamp (day : ℕ) : String := String.ofList (isoDate day ++ " 00:00".toList)

def minute (t : ℕ) : String :=
  String.ofList (isoDate (t / minutesOfDay) ++
    ' ' :: (pad 10 2 (t % minutesOfDay / 60) ++ ':' :: pad 10 2 (t % 60)))

/-- A half-open range over the creation date. -/
structure BoundWindow where
  start : Option String
  stop : String
  deriving DecidableEq, Repr

/-- The loop over the edges. A day is passed at each turn. -/
def dateEdges (width endDay : ℕ) : ℕ → ℕ → Except String (List ℕ)
  | 0, _ => .ok []
  | turns + 1, cursor =>
      if cursor < endDay then do
        let next ← addDays cursor width
        let rest ← dateEdges width endDay turns (min next endDay)
        return min next endDay :: rest
      else .ok []

def boundWindows (pinned : ℕ) : Option ℕ → List ℕ → List BoundWindow
  | _, [] => []
  | before, [_] => [{ start := before.map stamp, stop := minute pinned }]
  | before, edge :: rest =>
      { start := before.map stamp, stop := stamp edge } :: boundWindows pinned (some edge) rest

def createdWindows (first last : ℕ) : Except String (List BoundWindow) := do
  let pinned ← addMinute last
  let startDay := first / minutesOfDay
  let endDay ← addDays (pinned / minutesOfDay) 1
  let width := bucketWidth (max (endDay - startDay) 1)
  let edges ← dateEdges width endDay (endDay - startDay) startDay
  return boundWindows pinned none edges

def yearOf (t : ℕ) : ℕ := (ofOrdinal (t / minutesOfDay)).year

/-- Years a literal writes with four digits. -/
def FourDigits (t : ℕ) : Prop := 1000 ≤ yearOf t ∧ yearOf t ≤ 9999

/-- The minute lies in the window, as texts compare. -/
def BoundWindow.Covers (w : BoundWindow) (t : ℕ) : Prop :=
  (∀ s ∈ w.start, s ≤ minute t) ∧ minute t < w.stop

instance (w : BoundWindow) (t : ℕ) : Decidable (w.Covers t) :=
  inferInstanceAs (Decidable ((∀ s ∈ w.start, _) ∧ _))

def BoundWindow.bounds (w : BoundWindow) : List String := w.start.toList ++ [w.stop]

/-- Days from the oldest issue to the end of the day after the newest. -/
def spanDays (first last : ℕ) : ℕ := (last + 1) / minutesOfDay + 1 - first / minutesOfDay

structure Partition (first last : ℕ) (ws : List BoundWindow) : Prop where
  openBelow : ws.head?.map BoundWindow.start = some none
  contiguous : ws.IsChain fun w w' => w'.start = some w.stop
  ends : ws.getLast?.map BoundWindow.stop = some (minute (last + 1))
  covered : ∀ t, FourDigits t → t ≤ last → ws.countP (fun w => w.Covers t) = 1
  bounded : ∀ t, FourDigits t → last < t → ∀ w ∈ ws, ¬ w.Covers t
  texts : ∀ s ∈ ws.flatMap BoundWindow.bounds, ∃ t, FourDigits t ∧ s = minute t
  chronological : ∀ t t', FourDigits t → FourDigits t' → (minute t < minute t' ↔ t < t')
  ordered : (ws.map BoundWindow.stop).Pairwise (· ≤ ·)
  count : spanDays first last ≤ maxWindowsPerProject * 3650 → ws.length ≤ maxWindowsPerProject

/-- The last bucket, whole, ends within the calendar. -/
def LastBucketFits (first last : ℕ) : Prop :=
  let width := bucketWidth (max (spanDays first last) 1)
  first / minutesOfDay + ceilDiv (spanDays first last) width * width ≤ maxOrdinal

instance (first last : ℕ) : Decidable (LastBucketFits first last) :=
  inferInstanceAs (Decidable (_ ≤ maxOrdinal))

theorem stamp_eq_minute (day : ℕ) : stamp day = minute (day * minutesOfDay) := by
  have hday : day * minutesOfDay / minutesOfDay = day := Nat.mul_div_cancel _ (by decide)
  have htime : day * minutesOfDay % minutesOfDay = 0 := Nat.mul_mod_left _ _
  have hminute : day * minutesOfDay % 60 = 0 := by
    rw [minutesOfDay]
    omega
  rw [stamp, minute, hday, htime, hminute]
  rfl

theorem FourDigits.day_pos {t : ℕ} (h : FourDigits t) : 0 < t / minutesOfDay := by
  by_contra hday
  have hyear := h.1
  rw [yearOf, Nat.eq_zero_of_not_pos hday] at hyear
  exact absurd hyear (by decide)

theorem minute_lt {t t' : ℕ} (ht : FourDigits t) (ht' : FourDigits t') (h : t < t') :
    minute t < minute t' := by
  rw [minute, minute, String.lt_iff_toList_lt, String.toList_ofList, String.toList_ofList,
    append_lt_append_iff (by rw [isoDate_length, isoDate_length])]
  rcases (Nat.div_le_div_right h.le : t / minutesOfDay ≤ t' / minutesOfDay).lt_or_eq
    with hday | hday
  · exact Or.inl (isoDate_lt ht.day_pos hday ht.2 ht'.2)
  · refine Or.inr ⟨by rw [hday], ?_⟩
    rw [List.cons_lt_cons_self, append_lt_append_iff (by simp), decimal_lt_iff, decimal_inj,
      List.cons_lt_cons_self, decimal_lt_iff]
    simp only [minutesOfDay] at *
    omega

theorem minute_lt_iff {t t' : ℕ} (ht : FourDigits t) (ht' : FourDigits t') :
    minute t < minute t' ↔ t < t' := by
  constructor
  · intro h
    by_contra hle
    rcases (not_lt.1 hle).lt_or_eq with hgt | heq
    · exact lt_asymm h (minute_lt ht' ht hgt)
    · rw [heq] at h
      exact lt_irrefl _ h
  · exact minute_lt ht ht'

theorem minute_le_iff {t t' : ℕ} (ht : FourDigits t) (ht' : FourDigits t') :
    minute t ≤ minute t' ↔ t ≤ t' := by
  rw [← not_lt, minute_lt_iff ht' ht, not_lt]

theorem ceilDiv_zero (width : ℕ) : ceilDiv 0 width = 0 := by
  rcases Nat.eq_zero_or_pos width with rfl | hwidth
  · rfl
  · exact Nat.div_eq_of_lt (by omega)

theorem ceilDiv_step {span width : ℕ} (hwidth : 0 < width) (hspan : 0 < span) :
    ceilDiv span width = ceilDiv (span - width) width + 1 := by
  rw [ceilDiv, ceilDiv, ← Nat.add_div_right _ hwidth]
  rcases le_or_gt width span with hle | hgt
  · congr 1
    omega
  · have hone : (span + width - 1) / width = 1 := by
      rw [Nat.div_eq_iff hwidth]
      omega
    have hone' : (span - width + width - 1 + width) / width = 1 := by
      rw [Nat.div_eq_iff hwidth]
      omega
    rw [hone, hone']

/-- The loop fails exactly where the last bucket, whole, would end past the calendar. -/
theorem dateEdges_eq {width endDay turns cursor : ℕ} (hwidth : 0 < width)
    (hturns : endDay - cursor ≤ turns) (hcursor : cursor ≤ endDay) (hend : endDay ≤ maxOrdinal) :
    dateEdges width endDay turns cursor =
      if cursor + ceilDiv (endDay - cursor) width * width ≤ maxOrdinal then
        .ok (edges width endDay turns cursor)
      else .error "date value out of range" := by
  induction turns generalizing cursor with
  | zero =>
      have hzero : endDay - cursor = 0 := Nat.le_zero.1 hturns
      rw [hzero, ceilDiv_zero, if_pos (by omega)]
      rfl
  | succ turns ih =>
      rw [dateEdges, edges]
      rcases hcursor.lt_or_eq with hlt | rfl
      · have hnext : min (cursor + width) endDay ≤ endDay := min_le_right _ _
        have hstep := ceilDiv_step hwidth (by omega : 0 < endDay - cursor)
        have hfits : cursor + ceilDiv (endDay - cursor) width * width ≤ maxOrdinal ↔
            cursor + width ≤ maxOrdinal ∧
              min (cursor + width) endDay +
                ceilDiv (endDay - min (cursor + width) endDay) width * width ≤ maxOrdinal := by
          rw [hstep, Nat.succ_mul]
          rcases le_total (cursor + width) endDay with hle | hge
          · rw [min_eq_left hle, Nat.sub_sub]
            omega
          · rw [min_eq_right hge, Nat.sub_self, Nat.sub_sub, Nat.sub_eq_zero_of_le hge,
              ceilDiv_zero]
            omega
        rw [if_pos hlt, if_pos hlt]
        simp only [hfits, addDays]
        by_cases hday : cursor + width ≤ maxOrdinal
        · simp only [hday, if_true, true_and, bind, Except.bind, pure, Except.pure]
          rw [ih (by omega) hnext]
          split_ifs <;> rfl
        · simp only [hday, if_false, false_and, bind, Except.bind]
      · rw [if_neg (lt_irrefl _), if_neg (lt_irrefl _), Nat.sub_self, ceilDiv_zero,
          if_pos (by omega)]

theorem edges_length {width endDay turns cursor : ℕ} (hwidth : 0 < width)
    (hturns : endDay - cursor ≤ turns) (hcursor : cursor ≤ endDay) :
    (edges width endDay turns cursor).length = ceilDiv (endDay - cursor) width := by
  induction turns generalizing cursor with
  | zero => rw [Nat.le_zero.1 hturns, ceilDiv_zero, edges, List.length_nil]
  | succ turns ih =>
      rw [edges]
      rcases hcursor.lt_or_eq with hlt | rfl
      · have hrest : endDay - min (cursor + width) endDay = endDay - cursor - width := by omega
        have hstep := ceilDiv_step hwidth (by omega : 0 < endDay - cursor)
        rw [if_pos hlt, List.length_cons, ih (by omega) (min_le_right _ _), hrest, hstep]
      · rw [if_neg (lt_irrefl _), Nat.sub_self, ceilDiv_zero, List.length_nil]

theorem edges_range {width endDay turns cursor edge : ℕ} (hwidth : 0 < width)
    (h : edge ∈ edges width endDay turns cursor) : cursor < edge ∧ edge ≤ endDay := by
  induction turns generalizing cursor with
  | zero => cases h
  | succ turns ih =>
      rw [edges] at h
      split_ifs at h with hlt
      · rcases List.mem_cons.1 h with rfl | h
        · omega
        · have := ih h
          omega
      · cases h

theorem edges_sorted {width endDay turns cursor : ℕ} (hwidth : 0 < width) :
    (edges width endDay turns cursor).Pairwise (· < ·) := by
  induction turns generalizing cursor with
  | zero => exact List.Pairwise.nil
  | succ turns ih =>
      rw [edges]
      split_ifs with hlt
      · exact List.pairwise_cons.2 ⟨fun edge h => (edges_range hwidth h).1, ih⟩
      · exact List.Pairwise.nil

section

variable {pinned : ℕ} {before : Option ℕ} {es : List ℕ}

theorem boundWindows_cons_cons (edge next : ℕ) (rest : List ℕ) :
    boundWindows pinned before (edge :: next :: rest) =
      { start := before.map stamp, stop := stamp edge } ::
        boundWindows pinned (some edge) (next :: rest) := rfl

theorem boundWindows_length : (boundWindows pinned before es).length = es.length := by
  induction es generalizing before with
  | nil => rfl
  | cons edge rest ih =>
      cases rest with
      | nil => rfl
      | cons next rest =>
          rw [boundWindows_cons_cons, List.length_cons, ih]
          rfl

theorem boundWindows_head (h : es ≠ []) :
    (boundWindows pinned before es).head?.map BoundWindow.start = some (before.map stamp) := by
  cases es with
  | nil => exact absurd rfl h
  | cons edge rest => cases rest <;> rfl

theorem boundWindows_contiguous :
    (boundWindows pinned before es).IsChain fun w w' => w'.start = some w.stop := by
  induction es generalizing before with
  | nil => exact List.isChain_nil
  | cons edge rest ih =>
      cases rest with
      | nil => exact List.isChain_singleton _
      | cons next rest =>
          rw [boundWindows_cons_cons, List.isChain_cons]
          refine ⟨fun w hw => ?_, ih⟩
          have hhead : (boundWindows pinned (some edge) (next :: rest)).head?.map
              BoundWindow.start = some (some (stamp edge)) :=
            boundWindows_head (List.cons_ne_nil next rest)
          rw [Option.mem_def.1 hw] at hhead
          exact Option.some.inj hhead

def stops (pinned : ℕ) (es : List ℕ) : List ℕ := es.dropLast.map (· * minutesOfDay) ++ [pinned]

theorem boundWindows_stops (h : es ≠ []) :
    (boundWindows pinned before es).map BoundWindow.stop = (stops pinned es).map minute := by
  induction es generalizing before with
  | nil => exact absurd rfl h
  | cons edge rest ih =>
      cases rest with
      | nil => rfl
      | cons next rest =>
          rw [boundWindows_cons_cons, List.map_cons, ih (List.cons_ne_nil _ _), stamp_eq_minute]
          rfl

/-- Edges between the day of the oldest issue and the day after the newest. -/
structure Edges (pinned : ℕ) (before : Option ℕ) (es : List ℕ) : Prop where
  ne_nil : es ≠ []
  sorted : es.Pairwise (· < ·)
  le : ∀ e ∈ es, e ≤ pinned / minutesOfDay + 1
  after : ∀ d ∈ before, ∀ e ∈ es, d < e
  digits : ∀ e ∈ es, FourDigits (e * minutesOfDay)
  digitsBefore : ∀ d ∈ before, FourDigits (d * minutesOfDay)
  digitsPinned : FourDigits pinned

theorem Edges.tail {edge next : ℕ} {rest : List ℕ}
    (h : Edges pinned before (edge :: next :: rest)) :
    Edges pinned (some edge) (next :: rest) where
  ne_nil := List.cons_ne_nil _ _
  sorted := (List.pairwise_cons.1 h.sorted).2
  le e he := h.le e (List.mem_cons_of_mem _ he)
  after d hd e he := by
    obtain rfl := Option.some.inj hd
    exact (List.pairwise_cons.1 h.sorted).1 e he
  digits e he := h.digits e (List.mem_cons_of_mem _ he)
  digitsBefore d hd := by
    obtain rfl := Option.some.inj hd
    exact h.digits edge List.mem_cons_self
  digitsPinned := h.digitsPinned

theorem Edges.edge_le {edge next : ℕ} {rest : List ℕ}
    (h : Edges pinned before (edge :: next :: rest)) : edge * minutesOfDay ≤ pinned := by
  have hnext := h.le next (List.mem_cons_of_mem _ List.mem_cons_self)
  have hlt := (List.pairwise_cons.1 h.sorted).1 next List.mem_cons_self
  calc edge * minutesOfDay ≤ pinned / minutesOfDay * minutesOfDay :=
        Nat.mul_le_mul_right _ (by omega)
    _ ≤ pinned := Nat.div_mul_le_self _ _

theorem Edges.stops_sorted (h : Edges pinned before es) :
    (stops pinned es).Pairwise (· ≤ ·) ∧ ∀ t ∈ stops pinned es, FourDigits t := by
  induction es generalizing before with
  | nil => exact absurd rfl h.ne_nil
  | cons edge rest ih =>
      cases rest with
      | nil =>
          refine ⟨List.pairwise_singleton _ _, fun t ht => ?_⟩
          rw [List.mem_singleton.1 ht]
          exact h.digitsPinned
      | cons next rest =>
          obtain ⟨hsorted, hdigits⟩ := ih h.tail
          have hstops : stops pinned (edge :: next :: rest) =
              edge * minutesOfDay :: stops pinned (next :: rest) := rfl
          rw [hstops]
          refine ⟨List.pairwise_cons.2 ⟨fun t ht => ?_, hsorted⟩,
            List.forall_mem_cons.2 ⟨h.digits edge List.mem_cons_self, hdigits⟩⟩
          rcases List.mem_append.1 ht with ht | ht
          · obtain ⟨e, he, rfl⟩ := List.mem_map.1 ht
            have hlt := (List.pairwise_cons.1 h.sorted).1 e (List.mem_of_mem_dropLast he)
            exact Nat.mul_le_mul_right _ hlt.le
          · rw [List.mem_singleton.1 ht]
            exact h.edge_le

def From (before : Option ℕ) (t : ℕ) : Prop := ∀ d ∈ before, d * minutesOfDay ≤ t

instance (before : Option ℕ) (t : ℕ) : Decidable (From before t) :=
  inferInstanceAs (Decidable (∀ d ∈ before, _))

theorem covers_iff {t stop : ℕ} (hbefore : ∀ d ∈ before, FourDigits (d * minutesOfDay))
    (hstop : FourDigits stop) (ht : FourDigits t) :
    BoundWindow.Covers { start := before.map stamp, stop := minute stop } t ↔
      From before t ∧ t < stop := by
  refine and_congr ?_ (minute_lt_iff ht hstop)
  cases before with
  | none => simp [From]
  | some d =>
      have hd := hbefore d rfl
      simp only [Option.map_some, Option.mem_def, Option.some.injEq, forall_eq', From,
        stamp_eq_minute, minute_le_iff hd ht]

/-- A minute before the pinned instant and not before the first bound is in one window, any
other in none. -/
theorem Edges.countP (h : Edges pinned before es) {t : ℕ} (ht : FourDigits t) :
    (boundWindows pinned before es).countP (fun w => w.Covers t) =
      if From before t ∧ t < pinned then 1 else 0 := by
  induction es generalizing before with
  | nil => exact absurd rfl h.ne_nil
  | cons edge rest ih =>
      cases rest with
      | nil =>
          rw [boundWindows, List.countP_singleton]
          simp only [decide_eq_true_eq, covers_iff h.digitsBefore h.digitsPinned ht]
      | cons next rest =>
          have hedge := h.edge_le
          have hfrom : edge * minutesOfDay ≤ t → From before t := by
            intro hle d hd
            have hlt := h.after d hd edge List.mem_cons_self
            exact (Nat.mul_le_mul_right _ hlt.le).trans hle
          have hsome : From (some edge) t ↔ edge * minutesOfDay ≤ t := by simp [From]
          rw [boundWindows_cons_cons, List.countP_cons, ih h.tail, stamp_eq_minute]
          simp only [decide_eq_true_eq, hsome,
            covers_iff h.digitsBefore (h.digits edge List.mem_cons_self) ht]
          by_cases hle : edge * minutesOfDay ≤ t
          · have hpast : ¬ t < edge * minutesOfDay := not_lt.2 hle
            simp [hle, hfrom hle, hpast]
          · have hbefore : t < pinned := by omega
            simp [hle, hbefore, not_le.1 hle]

theorem boundWindows_bounds {s : String} (h : ∃ w ∈ boundWindows pinned before es, s ∈ w.bounds) :
    (∃ d ∈ before, s = stamp d) ∨ (∃ e ∈ es, s = stamp e) ∨ s = minute pinned := by
  obtain ⟨w, hw, hs⟩ := h
  induction es generalizing before with
  | nil => cases hw
  | cons edge rest ih =>
      cases rest with
      | nil =>
          rw [List.mem_singleton.1 hw, BoundWindow.bounds, List.mem_append, Option.mem_toList] at hs
          rcases hs with hs | hs
          · obtain ⟨d, hd, rfl⟩ := Option.map_eq_some_iff.1 hs
            exact Or.inl ⟨d, hd, rfl⟩
          · exact Or.inr (Or.inr (List.mem_singleton.1 hs))
      | cons next rest =>
          rw [boundWindows_cons_cons] at hw
          rcases List.mem_cons.1 hw with rfl | hw
          · rw [BoundWindow.bounds, List.mem_append, Option.mem_toList] at hs
            rcases hs with hs | hs
            · obtain ⟨d, hd, rfl⟩ := Option.map_eq_some_iff.1 hs
              exact Or.inl ⟨d, hd, rfl⟩
            · exact Or.inr (Or.inl ⟨edge, List.mem_cons_self, List.mem_singleton.1 hs⟩)
          · rcases ih hw with ⟨d, hd, hs⟩ | ⟨e, he, hs⟩ | hs
            · exact Or.inr (Or.inl ⟨edge, List.mem_cons_self, by rw [hs, Option.some.inj hd]⟩)
            · exact Or.inr (Or.inl ⟨e, List.mem_cons_of_mem _ he, hs⟩)
            · exact Or.inr (Or.inr hs)

end

theorem bucketWidth_fits {span : ℕ} (h : span ≤ maxWindowsPerProject * 3650) :
    ceilDiv span (bucketWidth span) ≤ maxWindowsPerProject := by
  have hlast : ceilDiv span 3650 ≤ maxWindowsPerProject := by
    rw [ceilDiv]
    simp only [maxWindowsPerProject] at *
    omega
  rw [bucketWidth]
  cases hfind : bucketLadder.find? fun days => ceilDiv span days ≤ maxWindowsPerProject with
  | none =>
      rw [List.find?_eq_none] at hfind
      exact absurd (decide_eq_true hlast) (hfind 3650 (by decide))
  | some days =>
      have hdays := List.find?_some hfind
      exact of_decide_eq_true hdays

theorem lt_day_of_year {t : ℕ} (h : 1000 ≤ yearOf t) : 364877 < t / minutesOfDay := by
  by_contra hle
  rcases Nat.eq_zero_or_pos (t / minutesOfDay) with hzero | hpos
  · rw [yearOf, hzero] at h
    exact absurd h (by decide)
  · have hyear : (ofOrdinal (t / minutesOfDay)).year < 1000 :=
      year_ofOrdinal_lt (by decide) (not_lt.1 hle) hpos
    exact absurd h (not_le.2 hyear)

theorem day_le_of_year {t : ℕ} (h : yearOf t ≤ 9998) : t / minutesOfDay ≤ 3651694 := by
  by_contra hlt
  have hyear : 9999 ≤ (ofOrdinal (t / minutesOfDay)).year := le_year_ofOrdinal (not_le.1 hlt)
  exact absurd h (not_le.2 hyear)

theorem fourDigits_of_day {t : ℕ} (h : 364877 < t / minutesOfDay)
    (h' : t / minutesOfDay ≤ maxOrdinal) : FourDigits t := by
  have hlow : 1000 ≤ (ofOrdinal (t / minutesOfDay)).year := le_year_ofOrdinal h
  have hhigh : (ofOrdinal (t / minutesOfDay)).year < 10000 :=
    year_ofOrdinal_lt (by decide) h' (by omega)
  exact ⟨hlow, Nat.le_of_lt_succ hhigh⟩

section

variable {first last : ℕ} (h : first ≤ last) (hfirst : 1000 ≤ yearOf first)
  (hlast : yearOf last ≤ 9998)

include h

theorem spanDays_pos : 0 < spanDays first last := by
  have hday : first / minutesOfDay ≤ (last + 1) / minutesOfDay :=
    Nat.div_le_div_right (by omega)
  rw [spanDays]
  omega

/-- The edges the loop passes when it does not fail. -/
def projectEdges (first last : ℕ) : List ℕ :=
  edges (bucketWidth (max (spanDays first last) 1)) ((last + 1) / minutesOfDay + 1)
    (spanDays first last) (first / minutesOfDay)

theorem projectEdges_length : (projectEdges first last).length =
    ceilDiv (spanDays first last) (bucketWidth (max (spanDays first last) 1)) :=
  edges_length (bucketWidth_pos _) (le_refl (spanDays first last))
    (Nat.le_of_lt (Nat.lt_of_sub_pos (spanDays_pos h)))

include hfirst hlast

theorem day_bounds : 364877 < first / minutesOfDay ∧
    (last + 1) / minutesOfDay + 1 ≤ 3651696 ∧ FourDigits (last + 1) := by
  have hdays : first / minutesOfDay ≤ last / minutesOfDay := Nat.div_le_div_right h
  have hnext : last / minutesOfDay ≤ (last + 1) / minutesOfDay := Nat.div_le_div_right (by omega)
  have hnext' : (last + 1) / minutesOfDay ≤ last / minutesOfDay + 1 := by
    rw [minutesOfDay]
    omega
  have hlow := lt_day_of_year hfirst
  have hhigh := day_le_of_year hlast
  refine ⟨hlow, by omega, fourDigits_of_day (by omega) ?_⟩
  rw [maxOrdinal]
  omega

theorem createdWindows_eq :
    createdWindows first last =
      if LastBucketFits first last then .ok (boundWindows (last + 1) none (projectEdges first last))
      else .error "date value out of range" := by
  obtain ⟨_, hend, _⟩ := day_bounds h hfirst hlast
  have hpinned : (last + 1) / minutesOfDay ≤ maxOrdinal := by
    rw [maxOrdinal]
    omega
  have hday : (last + 1) / minutesOfDay + 1 ≤ maxOrdinal := by
    rw [maxOrdinal]
    omega
  have hspan := spanDays_pos h
  have hloop : dateEdges (bucketWidth (max (spanDays first last) 1))
      ((last + 1) / minutesOfDay + 1) (spanDays first last) (first / minutesOfDay) =
        if LastBucketFits first last then .ok (projectEdges first last)
        else .error "date value out of range" :=
    dateEdges_eq (bucketWidth_pos _) (le_refl (spanDays first last))
      (Nat.le_of_lt (Nat.lt_of_sub_pos hspan)) hday
  have hminute : addMinute last = .ok (last + 1) := if_pos hpinned
  have hadd : addDays ((last + 1) / minutesOfDay) 1 = .ok ((last + 1) / minutesOfDay + 1) :=
    if_pos hday
  simp only [createdWindows, hminute, hadd, bind, Except.bind]
  change Except.bind
    (dateEdges (bucketWidth (max (spanDays first last) 1)) _ (spanDays first last) _)
    (fun found => Except.ok (boundWindows (last + 1) none found)) = _
  rw [hloop]
  by_cases hfits : LastBucketFits first last
  · rw [if_pos hfits, if_pos hfits]
    rfl
  · rw [if_neg hfits, if_neg hfits]
    rfl

theorem projectEdges_edges : Edges (last + 1) none (projectEdges first last) := by
  obtain ⟨hlow, hend, hpinned⟩ := day_bounds h hfirst hlast
  have hspan := spanDays_pos h
  have hwidth := bucketWidth_pos (max (spanDays first last) 1)
  have hrange : ∀ e ∈ projectEdges first last,
      first / minutesOfDay < e ∧ e ≤ (last + 1) / minutesOfDay + 1 :=
    fun e he => edges_range hwidth he
  refine
    { ne_nil := fun hnil => ?_
      sorted := edges_sorted hwidth
      le := fun e he => (hrange e he).2
      after := fun d hd => absurd hd (Option.not_mem_none d)
      digits := fun e he => ?_
      digitsBefore := fun d hd => absurd hd (Option.not_mem_none d)
      digitsPinned := hpinned }
  · have hlength := projectEdges_length h
    rw [hnil, List.length_nil, ceilDiv_step hwidth hspan] at hlength
    exact absurd hlength.symm (Nat.succ_ne_zero _)
  · obtain ⟨hafter, hbefore⟩ := hrange e he
    have hday : e * minutesOfDay / minutesOfDay = e := Nat.mul_div_cancel _ (by decide)
    refine fourDigits_of_day ?_ ?_
    · rw [hday]
      omega
    · rw [hday, maxOrdinal]
      omega

theorem partition_of_fits :
    Partition first last (boundWindows (last + 1) none (projectEdges first last)) := by
  have hedges := projectEdges_edges h hfirst hlast
  obtain ⟨hsorted, hdigits⟩ := hedges.stops_sorted
  have hstops : (boundWindows (last + 1) none (projectEdges first last)).map BoundWindow.stop =
      (stops (last + 1) (projectEdges first last)).map minute := boundWindows_stops hedges.ne_nil
  have hspan := spanDays_pos h
  refine
    { openBelow := boundWindows_head hedges.ne_nil
      contiguous := boundWindows_contiguous
      ends := ?ends
      covered := fun t ht hle => ?covered
      bounded := fun t ht hlt => ?bounded
      texts := fun s hs => ?texts
      chronological := fun t t' => minute_lt_iff
      ordered := ?ordered
      count := fun hfit => ?count }
  case ends =>
    rw [← List.getLast?_map, hstops, stops, List.map_append, List.map_singleton,
      List.getLast?_concat]
  case covered =>
    have hfrom : From none t := fun d hd => absurd hd (Option.not_mem_none d)
    rw [hedges.countP ht, if_pos ⟨hfrom, Nat.lt_succ_of_le hle⟩]
  case bounded =>
    have hcount := hedges.countP ht
    rw [if_neg fun hcovered => by omega, List.countP_eq_zero] at hcount
    exact fun w hw hcovers => hcount w hw (decide_eq_true hcovers)
  case texts =>
    rcases boundWindows_bounds (List.mem_flatMap.1 hs) with ⟨d, hd, _⟩ | ⟨e, he, rfl⟩ | rfl
    · exact absurd hd (Option.not_mem_none d)
    · exact ⟨e * minutesOfDay, hedges.digits e he, stamp_eq_minute e⟩
    · exact ⟨last + 1, hedges.digitsPinned, rfl⟩
  case ordered =>
    rw [hstops, List.pairwise_map]
    refine hsorted.imp_of_mem fun ht ht' hle => ?_
    exact (minute_le_iff (hdigits _ ht) (hdigits _ ht')).2 hle
  case count =>
    rw [boundWindows_length, projectEdges_length h, max_eq_left hspan]
    exact bucketWidth_fits hfit

/-- The windows partition the project exactly when the last bucket, whole, ends within the
calendar: else there are none. -/
theorem createdWindows_partition_iff :
    (∃ ws, createdWindows first last = .ok ws ∧ Partition first last ws) ↔
      LastBucketFits first last := by
  rw [createdWindows_eq h hfirst hlast]
  constructor
  · rintro ⟨ws, hws, _⟩
    by_contra hfits
    rw [if_neg hfits] at hws
    cases hws
  · intro hfits
    rw [if_pos hfits]
    exact ⟨_, rfl, partition_of_fits h hfirst hlast⟩

end

/-- Issues of four years, the last one filed in the last minute of a day. -/
theorem four_years_partition :
    ∃ ws, createdWindows (737439 * minutesOfDay + 630) (738900 * minutesOfDay + 1439) = .ok ws ∧
      Partition (737439 * minutesOfDay + 630) (738900 * minutesOfDay + 1439) ws :=
  (createdWindows_partition_iff (by decide) (by decide) (by decide)).2 (by decide)

/-- An oldest issue of the year 9901 and a newest one of 9998 are 20 buckets of 1825 days
apart, and the last of these would end in the year 10001. -/
theorem no_windows_past_the_calendar :
    minute (3615901 * minutesOfDay) = "9901-01-01 00:00" ∧
    minute (3651330 * minutesOfDay) = "9998-01-01 00:00" ∧
    createdWindows (3615901 * minutesOfDay) (3651330 * minutesOfDay) =
      .error "date value out of range" ∧
    ¬ ∃ ws, createdWindows (3615901 * minutesOfDay) (3651330 * minutesOfDay) = .ok ws ∧
      Partition (3615901 * minutesOfDay) (3651330 * minutesOfDay) ws := by
  have hwindows : createdWindows (3615901 * minutesOfDay) (3651330 * minutesOfDay) =
      .error "date value out of range" := by
    rw [createdWindows_eq (by decide) (by decide) (by decide), if_neg (by decide)]
  refine ⟨by decide, by decide, hwindows, ?_⟩
  rintro ⟨ws, hws, _⟩
  rw [hwindows] at hws
  cases hws

def literal (w : Window) : BoundWindow where
  start := w.start.map minute
  stop := w.stop.elim "" minute

theorem boundWindows_eq_map (pinned : ℕ) (before : Option ℕ) (es : List ℕ) :
    boundWindows pinned before es =
      (windowsBetween pinned (before.map (· * minutesOfDay)) es).map literal := by
  have hbefore (d : Option ℕ) : d.map stamp = (d.map (· * minutesOfDay)).map minute := by
    rw [Option.map_map]
    exact congrArg (Option.map · d) (funext stamp_eq_minute)
  induction es generalizing before with
  | nil => rfl
  | cons edge rest ih =>
      cases rest with
      | nil =>
          change [(⟨before.map stamp, minute pinned⟩ : BoundWindow)] = _
          rw [hbefore]
          rfl
      | cons next rest =>
          rw [boundWindows_cons_cons, hbefore, stamp_eq_minute, ih]
          rfl

/-- Where discovery does not fail, its literals are those of the windows in instants. -/
theorem createdWindows_eq_map {key : ProjectKey} {oldest newest : Issue}
    (h : minuteOf oldest.created ≤ minuteOf newest.created)
    (hfirst : 1000 ≤ yearOf (minuteOf oldest.created))
    (hlast : yearOf (minuteOf newest.created) ≤ 9998) {ws : List BoundWindow}
    (hws : createdWindows (minuteOf oldest.created) (minuteOf newest.created) = .ok ws) :
    ∃ windows, Jira.createdWindows key (searchOne (some oldest)) (searchOne (some newest)) =
      .ok windows ∧ ws = windows.map literal := by
  rw [createdWindows_eq h hfirst hlast] at hws
  split_ifs at hws with hfits
  rw [← Except.ok.inj hws, boundWindows_eq_map]
  exact ⟨_, rfl, rfl⟩

end IcebergSST.JiraDates
