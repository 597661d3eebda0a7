import Mathlib.Tactic

/-!
# Days and dates of the Gregorian calendar

Day 1 is the first of January of the year 1, as in the proleptic calendar. The date of a day
is found by dividing out the cycles of 400, 100, 4 and one years. A later day has a later
date, year first, then month, then day.
-/

namespace Calendar

def isLeap (year : ℕ) : Bool := year % 4 = 0 && (year % 100 ≠ 0 || year % 400 = 0)

def daysBeforeYear (year : ℕ) : ℕ :=
  (year - 1) * 365 + (year - 1) / 4 - (year - 1) / 100 + (year - 1) / 400

def daysInYear (leap : Bool) : ℕ := if leap then 366 else 365

def monthLengths (leap : Bool) : List ℕ :=
  [31, if leap then 29 else 28, 31, 30, 31, 30, 31, 31, 30, 31, 30, 31]

def daysBeforeMonth (leap : Bool) (month : ℕ) : ℕ := ((monthLengths leap).take (month - 1)).sum

/-- The year that holds a day, counted from the first one of all, and the days of it before. -/
def yearDay (n : ℕ) : ℕ × ℕ :=
  let n400 := n / 146097
  let n := n % 146097
  let n100 := n / 36524
  let n := n % 36524
  let n4 := n / 1461
  let n := n % 1461
  let n1 := n / 365
  let year := n400 * 400 + n100 * 100 + n4 * 4 + n1 + 1
  if n1 = 4 ∨ n100 = 4 then (year - 1, 365) else (year, n % 365)

/-- The estimate of the month is one too high at most. -/
def monthDay (leap : Bool) (n : ℕ) : ℕ × ℕ :=
  let month := (n + 50) / 32
  if n < daysBeforeMonth leap month then (month - 1, n - daysBeforeMonth leap (month - 1) + 1)
  else (month, n - daysBeforeMonth leap month + 1)

@[ext] structure Date where
  year : ℕ
  month : ℕ
  day : ℕ
  deriving DecidableEq, Repr

def ofOrdinal (n : ℕ) : Date :=
  let (year, k) := yearDay (n - 1)
  let (month, day) := monthDay (isLeap year) k
  { year, month, day }

def Date.toOrdinal (date : Date) : ℕ :=
  daysBeforeYear date.year + daysBeforeMonth (isLeap date.year) date.month + date.day

theorem succ_div_eq (n k : ℕ) : (n + 1) / k = n / k + if (n + 1) % k = 0 then 1 else 0 := by
  have hdiv : (n + 1) / k = n / k + if k ∣ n + 1 then 1 else 0 := Nat.succ_div
  simpa only [Nat.dvd_iff_mod_eq_zero] using hdiv

theorem daysInYear_isLeap (year : ℕ) :
    daysInYear (isLeap year) + (if year % 100 = 0 then 1 else 0) =
      365 + (if year % 4 = 0 then 1 else 0) + (if year % 400 = 0 then 1 else 0) := by
  have hfour : year % 100 = 0 → year % 4 = 0 := by omega
  have hhundred : year % 400 = 0 → year % 100 = 0 := by omega
  by_cases h4 : year % 4 = 0
  · by_cases h100 : year % 100 = 0
    · by_cases h400 : year % 400 = 0 <;> simp [daysInYear, isLeap, h4, h100, h400]
    · have h400 : ¬ year % 400 = 0 := fun h => h100 (hhundred h)
      simp [daysInYear, isLeap, h4, h100, h400]
  · have h100 : ¬ year % 100 = 0 := fun h => h4 (hfour h)
    have h400 : ¬ year % 400 = 0 := fun h => h100 (hhundred h)
    simp [daysInYear, isLeap, h4, h100, h400]

theorem daysBeforeYear_succ {year : ℕ} (h : 0 < year) :
    daysBeforeYear (year + 1) = daysBeforeYear year + daysInYear (isLeap year) := by
  obtain ⟨y, rfl⟩ : ∃ y, year = y + 1 := ⟨year - 1, by omega⟩
  have hcentury : y / 100 ≤ y / 4 := Nat.div_le_div_left (by decide) (by decide)
  have hcentury' : (y + 1) / 100 ≤ (y + 1) / 4 := Nat.div_le_div_left (by decide) (by decide)
  have hlength := daysInYear_isLeap (y + 1)
  have h4 := succ_div_eq y 4
  have h100 := succ_div_eq y 100
  have h400 := succ_div_eq y 400
  simp only [daysBeforeYear, Nat.add_sub_cancel]
  generalize (y + 1) / 4 = a, (y + 1) / 100 = b, (y + 1) / 400 = c, y / 4 = a', y / 100 = b',
    y / 400 = c' at *
  generalize (if (y + 1) % 4 = 0 then 1 else 0) = i, (if (y + 1) % 100 = 0 then 1 else 0) = j,
    (if (y + 1) % 400 = 0 then 1 else 0) = k at *
  omega

theorem daysBeforeYear_mono {year year' : ℕ} (h : 0 < year) (hle : year ≤ year') :
    daysBeforeYear year ≤ daysBeforeYear year' := by
  induction hle with
  | refl => exact le_rfl
  | step hle ih =>
      have hstep := daysBeforeYear_succ (Nat.lt_of_lt_of_le h hle)
      exact ih.trans (by rw [Nat.succ_eq_add_one, hstep]; exact Nat.le_add_right _ _)

theorem daysBeforeYear_cycles {n400 n100 n4 n1 : ℕ} (h100 : n100 ≤ 3) (h4 : n4 ≤ 24)
    (h1 : n1 ≤ 3) :
    daysBeforeYear (n400 * 400 + n100 * 100 + n4 * 4 + n1 + 1) =
      n400 * 146097 + n100 * 36524 + n4 * 1461 + n1 * 365 := by
  have hfour : (n400 * 400 + n100 * 100 + n4 * 4 + n1) / 4 = n400 * 100 + n100 * 25 + n4 := by omega
  have hhundred : (n400 * 400 + n100 * 100 + n4 * 4 + n1) / 100 = n400 * 4 + n100 := by omega
  have hfourHundred : (n400 * 400 + n100 * 100 + n4 * 4 + n1) / 400 = n400 := by omega
  rw [daysBeforeYear, Nat.add_sub_cancel, hfour, hhundred, hfourHundred]
  omega

theorem isLeap_cycles {n400 n100 n4 n1 : ℕ} (h100 : n100 ≤ 3) (h4 : n4 ≤ 24) (h1 : n1 ≤ 3) :
    isLeap (n400 * 400 + n100 * 100 + n4 * 4 + n1 + 1) ↔ n1 = 3 ∧ (n4 ≠ 24 ∨ n100 = 3) := by
  simp only [isLeap, Bool.and_eq_true, Bool.or_eq_true, decide_eq_true_eq]
  omega

theorem daysInYear_pos (leap : Bool) : 365 ≤ daysInYear leap := by
  cases leap <;> decide

theorem yearDay_spec (n : ℕ) :
    0 < (yearDay n).1 ∧ (yearDay n).2 < daysInYear (isLeap (yearDay n).1) ∧
      daysBeforeYear (yearDay n).1 + (yearDay n).2 = n := by
  have h400 := Nat.div_add_mod' n 146097
  have hr400 := Nat.mod_lt n (y := 146097) (by decide)
  unfold yearDay
  dsimp only
  generalize n / 146097 = n400, n % 146097 = r400 at *
  have h100 := Nat.div_add_mod' r400 36524
  have hr100 := Nat.mod_lt r400 (y := 36524) (by decide)
  generalize r400 / 36524 = n100, r400 % 36524 = r100 at *
  have h4 := Nat.div_add_mod' r100 1461
  have hr4 := Nat.mod_lt r100 (y := 1461) (by decide)
  generalize r100 / 1461 = n4, r100 % 1461 = r4 at *
  have h1 := Nat.div_add_mod' r4 365
  have hr1 := Nat.mod_lt r4 (y := 365) (by decide)
  generalize r4 / 365 = n1, r4 % 365 = r1 at *
  have hbound4 : n4 ≤ 24 := by omega
  split_ifs with hlast
  · -- The last day of a leap year is one more than its cycles hold.
    obtain ⟨m100, m4, hm100, hm4, hyear, hleap, hday⟩ : ∃ m100 m4, m100 ≤ 3 ∧ m4 ≤ 24 ∧
        n400 * 400 + n100 * 100 + n4 * 4 + n1 + 1 - 1 =
          n400 * 400 + m100 * 100 + m4 * 4 + 3 + 1 ∧ (m4 ≠ 24 ∨ m100 = 3) ∧
        n = n400 * 146097 + m100 * 36524 + m4 * 1461 + 3 * 365 + 365 := by
      by_cases hcentury : n100 = 4
      · exact ⟨3, 24, by omega, by omega, by omega, by omega, by omega⟩
      · exact ⟨n100, n4, by omega, by omega, by omega, by omega, by omega⟩
    dsimp only
    rw [hyear, daysBeforeYear_cycles hm100 hm4 le_rfl,
      (isLeap_cycles hm100 hm4 le_rfl).2 ⟨rfl, hleap⟩]
    have hpos : 0 < n400 * 400 + m100 * 100 + m4 * 4 + 3 + 1 := Nat.succ_pos _
    have hlong : 365 < daysInYear true := by decide
    exact ⟨hpos, hlong, hday.symm⟩
  · have hlong := daysInYear_pos (isLeap (n400 * 400 + n100 * 100 + n4 * 4 + n1 + 1))
    have hpos : 0 < n400 * 400 + n100 * 100 + n4 * 4 + n1 + 1 := Nat.succ_pos _
    dsimp only
    rw [daysBeforeYear_cycles (by omega) hbound4 (by omega)]
    refine ⟨hpos, hr1.trans_le hlong, ?_⟩
    rw [← h400, ← h100, ← h4, ← h1]
    simp only [Nat.add_assoc]

theorem yearDay_lt {n n' : ℕ} (h : n < n') :
    (yearDay n).1 < (yearDay n').1 ∨
      (yearDay n).1 = (yearDay n').1 ∧ (yearDay n).2 < (yearDay n').2 := by
  obtain ⟨_, _, hday⟩ := yearDay_spec n
  obtain ⟨hpos, hlength, hday'⟩ := yearDay_spec n'
  rcases Nat.lt_trichotomy (yearDay n).1 (yearDay n').1 with hlt | heq | hgt
  · exact Or.inl hlt
  · rw [heq] at hday
    exact Or.inr ⟨heq, by omega⟩
  · have hnext := daysBeforeYear_succ hpos
    have hmono := daysBeforeYear_mono (Nat.succ_pos _) (Nat.succ_le_of_lt hgt)
    rw [Nat.succ_eq_add_one] at hmono
    omega

theorem monthDay_spec (leap : Bool) : ∀ k < daysInYear leap,
    (1 ≤ (monthDay leap k).1 ∧ (monthDay leap k).1 ≤ 12) ∧
      (1 ≤ (monthDay leap k).2 ∧ (monthDay leap k).2 ≤ 31) ∧
      daysBeforeMonth leap (monthDay leap k).1 + (monthDay leap k).2 = k + 1 ∧
      k + 1 ≤ daysBeforeMonth leap ((monthDay leap k).1 + 1) := by
  cases leap <;> decide +kernel

theorem daysBeforeMonth_mono (leap : Bool) {m m' : ℕ} (h : m ≤ m') :
    daysBeforeMonth leap m ≤ daysBeforeMonth leap m' :=
  (List.Sublist.sum_le_sum (List.take_sublist_take_left (Nat.sub_le_sub_right h 1))
    fun _ _ => Nat.zero_le _)

theorem monthDay_lt {leap : Bool} {k k' : ℕ} (h : k < k') (hk' : k' < daysInYear leap) :
    (monthDay leap k).1 < (monthDay leap k').1 ∨
      (monthDay leap k).1 = (monthDay leap k').1 ∧
        (monthDay leap k).2 < (monthDay leap k').2 := by
  obtain ⟨_, _, hday, _⟩ := monthDay_spec leap k (h.trans hk')
  obtain ⟨_, _, hday', hlast⟩ := monthDay_spec leap k' hk'
  rcases Nat.lt_trichotomy (monthDay leap k).1 (monthDay leap k').1 with hlt | heq | hgt
  · exact Or.inl hlt
  · rw [heq] at hday
    exact Or.inr ⟨heq, by omega⟩
  · have hmono := daysBeforeMonth_mono leap (Nat.succ_le_of_lt hgt)
    rw [Nat.succ_eq_add_one] at hmono
    omega

theorem ofOrdinal_year (n : ℕ) : (ofOrdinal n).year = (yearDay (n - 1)).1 := rfl

theorem ofOrdinal_month (n : ℕ) : (ofOrdinal n).month =
    (monthDay (isLeap (yearDay (n - 1)).1) (yearDay (n - 1)).2).1 := rfl

theorem ofOrdinal_day (n : ℕ) : (ofOrdinal n).day =
    (monthDay (isLeap (yearDay (n - 1)).1) (yearDay (n - 1)).2).2 := rfl

theorem ofOrdinal_spec (n : ℕ) :
    0 < (ofOrdinal n).year ∧ (1 ≤ (ofOrdinal n).month ∧ (ofOrdinal n).month ≤ 12) ∧
      1 ≤ (ofOrdinal n).day ∧ (ofOrdinal n).day ≤ 31 := by
  obtain ⟨hyear, hlength, _⟩ := yearDay_spec (n - 1)
  obtain ⟨hmonth, hday, _⟩ := monthDay_spec _ _ hlength
  exact ⟨hyear, hmonth, hday⟩

theorem toOrdinal_ofOrdinal {n : ℕ} (h : 0 < n) : (ofOrdinal n).toOrdinal = n := by
  obtain ⟨_, hlength, hyear⟩ := yearDay_spec (n - 1)
  obtain ⟨_, _, hday, _⟩ := monthDay_spec _ _ hlength
  rw [Date.toOrdinal, ofOrdinal_year, ofOrdinal_month, ofOrdinal_day]
  omega

def Date.Before (a b : Date) : Prop :=
  a.year < b.year ∨ a.year = b.year ∧
    (a.month < b.month ∨ a.month = b.month ∧ a.day < b.day)

theorem ofOrdinal_before {n n' : ℕ} (hn : 0 < n) (h : n < n') :
    (ofOrdinal n).Before (ofOrdinal n') := by
  have hlength := (yearDay_spec (n' - 1)).2.1
  rcases yearDay_lt (by omega : n - 1 < n' - 1) with hyear | ⟨hyear, hday⟩
  · exact Or.inl hyear
  · refine Or.inr ⟨hyear, ?_⟩
    rw [ofOrdinal_month, ofOrdinal_month, ofOrdinal_day, ofOrdinal_day, hyear]
    exact monthDay_lt hday hlength

theorem year_ofOrdinal_lt {n year : ℕ} (hyear : 0 < year) (h : n ≤ daysBeforeYear year)
    (hn : 0 < n) :
    (ofOrdinal n).year < year := by
  obtain ⟨_, _, hday⟩ := yearDay_spec (n - 1)
  rw [ofOrdinal_year]
  by_contra hle
  have hmono := daysBeforeYear_mono hyear (not_lt.1 hle)
  omega

theorem le_year_ofOrdinal {n year : ℕ} (h : daysBeforeYear year < n) :
    year ≤ (ofOrdinal n).year := by
  obtain ⟨hpos, hlength, hday⟩ := yearDay_spec (n - 1)
  rw [ofOrdinal_year]
  by_contra hlt
  have hnext := daysBeforeYear_succ hpos
  have hmono := daysBeforeYear_mono (Nat.succ_pos _) (Nat.succ_le_of_lt (not_le.1 hlt))
  rw [Nat.succ_eq_add_one] at hmono
  omega

end Calendar
