import Mathlib.Tactic

/-!
# Lists that are kept up to a cap

A log keeps its first entries up to a cap and counts the ones it does not keep. Logs
append, and the cap does not see how the entries were grouped; what one log adds to
an earlier one is again a log, and appending it gives the later log back.
-/

structure CappedLog (α : Type*) where
  kept : List α
  omitted : ℤ

namespace CappedLog

variable {α : Type*} {cap : ℕ} {l m n : CappedLog α}

theorem ext (hk : l.kept = m.kept) (ho : l.omitted = m.omitted) : l = m := by
  cases l
  cases m
  simp_all

def append (cap : ℕ) (l m : CappedLog α) : CappedLog α where
  kept := (l.kept ++ m.kept).take cap
  omitted := l.omitted + m.omitted +
    ((l.kept ++ m.kept).length - ((l.kept ++ m.kept).take cap).length)

/-- Every entry a log was ever given. -/
def size (l : CappedLog α) : ℤ := l.kept.length + l.omitted

/-- What `l` holds beyond `m`. -/
def diff (l m : CappedLog α) : CappedLog α where
  kept := l.kept.drop m.kept.length
  omitted := l.omitted - m.omitted

theorem size_append (l m : CappedLog α) : (l.append cap m).size = l.size + m.size := by
  simp only [append, size, List.length_append]
  push_cast
  ring

theorem take_append_take (xs ys : List α) :
    ((xs ++ ys.take cap).take cap) = (xs ++ ys).take cap := by
  rw [List.take_append, List.take_append, List.take_take]
  congr 2
  omega

theorem take_take_append (xs ys : List α) :
    ((xs.take cap ++ ys).take cap) = (xs ++ ys).take cap := by
  rw [List.take_append, List.take_append, List.take_take, min_self, List.length_take]
  congr 2
  omega

/-- Two logs that kept the same and were given as much omitted as much. -/
theorem eq_of_size (hk : l.kept = m.kept) (hs : l.size = m.size) : l = m := by
  apply ext hk
  rw [size, size, hk] at hs
  exact add_left_cancel hs

theorem append_assoc (l m n : CappedLog α) :
    (l.append cap m).append cap n = l.append cap (m.append cap n) := by
  apply eq_of_size
  · simp only [append]
    rw [take_take_append, take_append_take, List.append_assoc]
  · simp only [size_append, add_assoc]

theorem size_diff (hinitial : m.kept <+: l.kept) : (l.diff m).size = l.size - m.size := by
  have hle := hinitial.length_le
  simp only [diff, size, List.length_drop]
  omega

/-- A later log is the earlier one with the difference appended. -/
theorem append_diff (hinitial : m.kept <+: l.kept) (hcap : l.kept.length ≤ cap) :
    m.append cap (l.diff m) = l := by
  apply eq_of_size
  · simp only [append, diff]
    rw [List.prefix_iff_eq_append.1 hinitial, List.take_of_length_le hcap]
  · rw [size_append, size_diff hinitial]
    ring

end CappedLog
