import Mathlib.Data.String.Basic
import Mathlib.Tactic

/-!
# Texts of fixed width compare field by field

Two texts with first fields of one length compare as those fields do, and as the rest does
where they agree. Numerals padded with zeros to one width compare as their numbers do.
-/

namespace FixedWidth

section

variable {α : Type*} [LinearOrder α]

theorem append_lt_append_iff {a a' b b' : List α} (h : a.length = a'.length) :
    a ++ b < a' ++ b' ↔ a < a' ∨ a = a' ∧ b < b' := by
  induction a generalizing a' with
  | nil =>
      obtain rfl := List.length_eq_zero_iff.1 h.symm
      simp
  | cons x a ih =>
      cases a' with
      | nil => cases h
      | cons x' a' =>
          rw [List.cons_append, List.cons_append, List.cons_lt_cons_iff, List.cons_lt_cons_iff,
            ih (Nat.succ.inj h), List.cons.injEq]
          tauto

end

/-- The last digits of a number in a base of at most sixteen, as many as the width says. -/
def pad (base : ℕ) : ℕ → ℕ → List Char
  | 0, _ => []
  | width + 1, n => Nat.digitChar (n / base ^ width % base) :: pad base width n

@[simp] theorem pad_length (base width n : ℕ) : (pad base width n).length = width := by
  induction width with
  | zero => rfl
  | succ width ih => rw [pad, List.length_cons, ih]

theorem digitChar_lt_iff : ∀ d < 16, ∀ d' < 16, Nat.digitChar d < Nat.digitChar d' ↔ d < d' := by
  decide

theorem digitChar_inj : ∀ d < 16, ∀ d' < 16, Nat.digitChar d = Nat.digitChar d' ↔ d = d' := by
  decide

/-- Two numbers with the same unit compare as their units do, and as the rest does where these
agree. -/
theorem radix_lt_iff {unit low low' high high' : ℕ} (h : low < unit) (h' : low' < unit) :
    low + unit * high < low' + unit * high' ↔ high < high' ∨ high = high' ∧ low < low' := by
  rcases Nat.lt_trichotomy high high' with hlt | rfl | hgt
  · have hstep := Nat.mul_le_mul_left unit (Nat.succ_le_of_lt hlt)
    rw [Nat.mul_succ] at hstep
    omega
  · omega
  · have hstep := Nat.mul_le_mul_left unit (Nat.succ_le_of_lt hgt)
    rw [Nat.mul_succ] at hstep
    omega

section

variable {base : ℕ} (hpos : 0 < base) (hbase : base ≤ 16)

include hpos hbase

theorem pad_lt_iff (width m n : ℕ) :
    pad base width m < pad base width n ↔ m % base ^ width < n % base ^ width := by
  induction width with
  | zero => simp [pad, Nat.mod_one]
  | succ width ih =>
      have hm := (Nat.mod_lt (m / base ^ width) hpos).trans_le hbase
      have hn := (Nat.mod_lt (n / base ^ width) hpos).trans_le hbase
      have hunit : 0 < base ^ width := Nat.pow_pos hpos
      rw [pad, pad, List.cons_lt_cons_iff, ih, digitChar_lt_iff _ hm _ hn,
        digitChar_inj _ hm _ hn, Nat.mod_pow_succ, Nat.mod_pow_succ,
        radix_lt_iff (Nat.mod_lt m hunit) (Nat.mod_lt n hunit)]

theorem pad_inj (width m n : ℕ) :
    pad base width m = pad base width n ↔ m % base ^ width = n % base ^ width := by
  have hlt := not_congr (pad_lt_iff hpos hbase width m n)
  have hgt := not_congr (pad_lt_iff hpos hbase width n m)
  rw [not_lt, not_lt] at hlt hgt
  rw [le_antisymm_iff, le_antisymm_iff, hlt, hgt]

end

theorem decimal_lt_iff (width m n : ℕ) :
    pad 10 width m < pad 10 width n ↔ m % 10 ^ width < n % 10 ^ width :=
  pad_lt_iff (by decide) (by decide) width m n

theorem decimal_inj (width m n : ℕ) :
    pad 10 width m = pad 10 width n ↔ m % 10 ^ width = n % 10 ^ width :=
  pad_inj (by decide) (by decide) width m n

def digitValue (c : Char) : ℕ :=
  if c.isDigit then c.toNat - '0'.toNat else c.toNat - 'a'.toNat + 10

def value (base : ℕ) (text : List Char) : ℕ :=
  text.foldl (fun n c => base * n + digitValue c) 0

theorem digitValue_digitChar : ∀ d < 16, digitValue (Nat.digitChar d) = d := by decide

theorem foldl_pad {base : ℕ} (hpos : 0 < base) (hbase : base ≤ 16) (width n start : ℕ) :
    (pad base width n).foldl (fun n c => base * n + digitValue c) start =
      start * base ^ width + n % base ^ width := by
  induction width generalizing start with
  | zero => simp [pad, Nat.mod_one]
  | succ width ih =>
      have hdigit := digitValue_digitChar _ ((Nat.mod_lt (n / base ^ width) hpos).trans_le hbase)
      rw [pad, List.foldl_cons, ih, hdigit, Nat.mod_pow_succ, pow_succ]
      ring

theorem value_pad {base : ℕ} (hpos : 0 < base) (hbase : base ≤ 16) (width n : ℕ) :
    value base (pad base width n) = n % base ^ width := by
  rw [value, foldl_pad hpos hbase, Nat.zero_mul, Nat.zero_add]

end FixedWidth
