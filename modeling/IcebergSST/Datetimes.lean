import IcebergSST.Library.Calendar
import IcebergSST.Library.FixedWidth
import IcebergSST.PyText

/-!
# Dates and times as text

A date is the number of its day. A date and time has the microseconds of the day and, if it
is aware, its distance from UTC. `isoformat` writes them in fields of fixed width, with a
fraction of a second only where there is one.
-/

namespace IcebergSST

open Calendar FixedWidth

/-- `date.isoformat()`, which is also `%Y-%m-%d` for a year of four digits -/
def isoDate (day : ℕ) : List Char :=
  let date := ofOrdinal day
  pad 10 4 date.year ++ '-' :: (pad 10 2 date.month ++ '-' :: pad 10 2 date.day)

theorem isoDate_length (day : ℕ) : (isoDate day).length = 10 := by
  simp [isoDate]

theorem isoDate_lt {day day' : ℕ} (hpos : 0 < day) (h : day < day')
    (hyear : (ofOrdinal day).year ≤ 9999) (hyear' : (ofOrdinal day').year ≤ 9999) :
    isoDate day < isoDate day' := by
  obtain ⟨_, ⟨_, hmonth⟩, _, hday⟩ := ofOrdinal_spec day
  obtain ⟨_, ⟨_, hmonth'⟩, _, hday'⟩ := ofOrdinal_spec day'
  have hbefore := ofOrdinal_before hpos h
  rw [Date.Before] at hbefore
  rw [isoDate, isoDate, append_lt_append_iff (by simp), decimal_lt_iff, decimal_inj,
    List.cons_lt_cons_self, append_lt_append_iff (by simp), decimal_lt_iff, decimal_inj,
    List.cons_lt_cons_self, decimal_lt_iff]
  omega

/-- Microseconds of a second and of a day. -/
def second : ℕ := 1000000

def wholeDay : ℕ := 86400 * second

structure Datetime where
  day : ℕ
  time : ℕ
  offset : Option ℤ
  day_pos : 0 < day
  day_le : day ≤ daysBeforeYear 10000
  time_lt : time < wholeDay
  offset_lt : ∀ o ∈ offset, o.natAbs < wholeDay
  deriving DecidableEq

def fraction (t : ℕ) : List Char :=
  if t % second = 0 then [] else '.' :: pad 10 6 (t % second)

def clockText (t : ℕ) : List Char :=
  pad 10 2 (t / second / 3600) ++ ':' :: (pad 10 2 (t / second / 60 % 60) ++
    ':' :: (pad 10 2 (t / second % 60) ++ fraction t))

/-- Hours and minutes, and what is left if anything is. -/
def offsetText (o : ℤ) : List Char :=
  let t := o.natAbs
  (if o < 0 then '-' else '+') :: (pad 10 2 (t / second / 3600) ++
    ':' :: (pad 10 2 (t / second / 60 % 60) ++
      if t % (60 * second) = 0 then [] else ':' :: (pad 10 2 (t / second % 60) ++ fraction t)))

namespace Datetime

def text (d : Datetime) : List Char :=
  isoDate d.day ++ 'T' :: (clockText d.time ++ d.offset.elim [] offsetText)

def isoformat (d : Datetime) : PyStr := d.text.map Char.toNat

theorem getD_lt (d : Datetime) : ∀ o ∈ some (d.offset.getD 0), o.natAbs < wholeDay := by
  intro o ho
  obtain rfl := Option.some.inj ho
  cases h : d.offset with
  | none => decide
  | some o => exact d.offset_lt o h

def aware (d : Datetime) : Datetime :=
  { d with
    offset := some (d.offset.getD 0)
    offset_lt := d.getD_lt }

theorem aware_of_isSome {d : Datetime} (h : d.offset.isSome) : d.aware = d := by
  obtain ⟨o, ho⟩ := Option.isSome_iff_exists.1 h
  cases d
  simp only [aware]
  subst ho
  rfl

end Datetime

def field (width : ℕ) (s : List Char) : ℕ × List Char := (value 10 (s.take width), s.drop width)

theorem field_pad {width n : ℕ} (h : n < 10 ^ width) (s : List Char) :
    field width (pad 10 width n ++ s) = (n, s) := by
  have hlength := pad_length 10 width n
  rw [field, List.take_left' hlength, List.drop_left' hlength, value_pad (by decide) (by decide),
    Nat.mod_eq_of_lt h]

def readFraction (s : List Char) : ℕ × List Char :=
  if s.head? = some '.' then field 6 s.tail else (0, s)

theorem readFraction_fraction (t : ℕ) {s : List Char} (hs : s.head? ≠ some '.') :
    readFraction (fraction t ++ s) = (t % second, s) := by
  rw [fraction, readFraction]
  split_ifs with hzero hpoint hpoint
  · exact absurd hpoint hs
  · rw [hzero]
    rfl
  · exact field_pad (Nat.mod_lt t (by decide)) s
  · exact absurd rfl hpoint

def readClock (s : List Char) : ℕ × List Char :=
  let hour := field 2 s
  let minute := field 2 hour.2.tail
  let seconds := field 2 minute.2.tail
  let micros := readFraction seconds.2
  (((hour.1 * 60 + minute.1) * 60 + seconds.1) * second + micros.1, micros.2)

theorem readClock_clockText {t : ℕ} (ht : t < wholeDay) {s : List Char} (hs : s.head? ≠ some '.') :
    readClock (clockText t ++ s) = (t, s) := by
  have hhour : t / second / 3600 < 10 ^ 2 := by
    simp only [wholeDay, second] at *
    omega
  have hminute : t / second / 60 % 60 < 10 ^ 2 := by omega
  have hsecond : t / second % 60 < 10 ^ 2 := by omega
  simp only [readClock, clockText, List.append_assoc, List.cons_append, field_pad hhour,
    List.tail_cons, field_pad hminute, field_pad hsecond, readFraction_fraction t hs]
  congr 1
  have hsplit := Nat.div_add_mod' t second
  have hclock : (t / second / 3600 * 60 + t / second / 60 % 60) * 60 + t / second % 60 =
      t / second := by omega
  rw [hclock, hsplit]

def readOffset (s : List Char) : Option ℤ :=
  match s with
  | [] => none
  | sign :: s =>
      let hour := field 2 s
      let minute := field 2 hour.2.tail
      let low :=
        if minute.2 = [] then 0
        else
          let seconds := field 2 minute.2.tail
          seconds.1 * second + (readFraction seconds.2).1
      let size := (hour.1 * 60 + minute.1) * 60 * second + low
      some (if sign = '-' then -(size : ℤ) else size)

theorem whole_minutes {t : ℕ} (h : t % (60 * second) = 0) :
    t / second % 60 * second + t % second = 0 := by
  obtain ⟨k, rfl⟩ := Nat.dvd_of_mod_eq_zero h
  rw [second]
  omega

theorem readOffset_offsetText {o : ℤ} (h : o.natAbs < wholeDay) :
    readOffset (offsetText o) = some o := by
  have hhour : o.natAbs / second / 3600 < 10 ^ 2 := by
    simp only [wholeDay, second] at *
    omega
  have hminute : o.natAbs / second / 60 % 60 < 10 ^ 2 := by omega
  have hsecond : o.natAbs / second % 60 < 10 ^ 2 := by omega
  have hsplit := Nat.div_add_mod' o.natAbs second
  have hsize : (o.natAbs / second / 3600 * 60 + o.natAbs / second / 60 % 60) * 60 * second +
      (o.natAbs / second % 60 * second + o.natAbs % second) = o.natAbs := by
    simp only [second]
    omega
  have hsign : (if (if o < 0 then '-' else '+') = '-' then -(o.natAbs : ℤ) else o.natAbs) = o := by
    by_cases ho : o < 0
    · rw [if_pos ho, if_pos rfl]
      omega
    · rw [if_neg ho, if_neg (by decide)]
      omega
  simp only [readOffset, offsetText, field_pad hhour, List.tail_cons, field_pad hminute]
  by_cases hwhole : o.natAbs % (60 * second) = 0
  · rw [whole_minutes hwhole] at hsize
    simp only [hwhole, if_true, hsize, hsign]
  · have hfraction := readFraction_fraction o.natAbs (s := []) (by simp)
    rw [List.append_nil] at hfraction
    simp only [hwhole, if_false, List.tail_cons, reduceCtorEq, field_pad hsecond, hfraction, hsize,
      hsign]

def readDate (s : List Char) : ℕ × List Char :=
  let year := field 4 s
  let month := field 2 year.2.tail
  let day := field 2 month.2.tail
  (Date.toOrdinal { year := year.1, month := month.1, day := day.1 }, day.2)

theorem readDate_isoDate {day : ℕ} (hpos : 0 < day) (hle : day ≤ daysBeforeYear 10000)
    (s : List Char) : readDate (isoDate day ++ s) = (day, s) := by
  obtain ⟨_, ⟨_, hmonth⟩, _, hday⟩ := ofOrdinal_spec day
  have hyear : (ofOrdinal day).year < 10 ^ 4 :=
    year_ofOrdinal_lt (by decide) hle hpos
  have hmonth : (ofOrdinal day).month < 10 ^ 2 := by omega
  have hday : (ofOrdinal day).day < 10 ^ 2 := by omega
  simp only [readDate, isoDate, List.append_assoc, List.cons_append, field_pad hyear,
    List.tail_cons, field_pad hmonth, field_pad hday]
  rw [toOrdinal_ofOrdinal hpos]

def datetime? (day time : ℕ) (offset : Option ℤ) : Option Datetime :=
  if h : (0 < day ∧ day ≤ daysBeforeYear 10000) ∧ time < wholeDay ∧
      ∀ o ∈ offset, o.natAbs < wholeDay then
    some ⟨day, time, offset, h.1.1, h.1.2, h.2.1, h.2.2⟩
  else none

/-- Reads what `isoformat` writes and refuses any other text. -/
def readIso (s : PyStr) : Option Datetime :=
  let date := readDate (s.map Char.ofNat)
  let clock := readClock date.2.tail
  (datetime? date.1 clock.1 (readOffset clock.2)).filter fun d => d.isoformat = s

theorem readIso_isoformat (d : Datetime) : readIso d.isoformat = some d := by
  have hchars : d.isoformat.map Char.ofNat = d.text := by
    rw [Datetime.isoformat, List.map_map]
    exact (List.map_congr_left fun c _ => Char.ofNat_toNat c).trans (List.map_id _)
  have hpoint : (d.offset.elim [] offsetText).head? ≠ some '.' := by
    cases d.offset with
    | none => simp
    | some o =>
        rw [Option.elim_some, offsetText, List.head?_cons]
        split_ifs <;> decide
  have hoffset : readOffset (d.offset.elim [] offsetText) = d.offset := by
    cases ho : d.offset with
    | none => rfl
    | some o => exact readOffset_offsetText (d.offset_lt o ho)
  have hparts : datetime? d.day d.time d.offset = some d :=
    dif_pos ⟨⟨d.day_pos, d.day_le⟩, d.time_lt, d.offset_lt⟩
  simp only [readIso, hchars, Datetime.text, readDate_isoDate d.day_pos d.day_le, List.tail_cons,
    readClock_clockText d.time_lt hpoint, hoffset, hparts]
  exact Option.filter_some_pos (decide_eq_true rfl)

end IcebergSST
