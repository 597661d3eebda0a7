import IcebergSST.Library.Squeeze
import IcebergSST.Text

/-!
# Python strings

Sequences of code points, with a lone surrogate for a byte that is not valid UTF-8, and the
methods of `str` that the connectors use on them. `tidy` is what the flatteners of rich text
end with: it changes blanks only.
-/

namespace IcebergSST

open Squeeze

/-- A `str`: code points, lone surrogates included. -/
abbrev PyStr := List ℕ

def pyStr (s : String) : PyStr := s.toList.map Char.toNat

def isAsciiAlpha (c : ℕ) : Bool := (0x41 ≤ c && c ≤ 0x5a) || (0x61 ≤ c && c ≤ 0x7a)

def asciiLower (c : ℕ) : ℕ := if 0x41 ≤ c && c ≤ 0x5a then c + 0x20 else c

def spaceCode (c : ℕ) : Bool := isSpace (Char.ofNat c)

/-- `str.strip()` leaves nothing. -/
def blank (text : PyStr) : Bool := text.all fun c => isSpace (Char.ofNat c)

namespace PyStr

def strip (s : PyStr) : PyStr := (s.dropWhile spaceCode).rdropWhile spaceCode

def isLineBreak (c : ℕ) : Bool :=
  (0xa ≤ c && c ≤ 0xd) || (0x1c ≤ c && c ≤ 0x1e) || c = 0x85 || c = 0x2028 || c = 0x2029

/-- `line` is the line under way, last character first; the flag says that a carriage return
ended the one before. -/
def splitlinesFrom : Bool → PyStr → PyStr → List PyStr
  | _, [], [] => []
  | _, c :: line, [] => [(c :: line).reverse]
  | afterReturn, line, c :: s =>
      if afterReturn && c = 0xa then splitlinesFrom false line s
      else if isLineBreak c then line.reverse :: splitlinesFrom (c = 0xd) [] s
      else splitlinesFrom false (c :: line) s

def splitlines (s : PyStr) : List PyStr := splitlinesFrom false [] s

end PyStr

/-- What `\d` takes for a digit, and the digit it is. -/
structure DecimalDigits where
  value : ℕ → Option ℕ
  ascii : ∀ c < 0x80, value c = if 0x30 ≤ c ∧ c ≤ 0x39 then some (c - 0x30) else none

def DecimalDigits.isDigit (digits : DecimalDigits) (c : ℕ) : Bool := (digits.value c).isSome

/-- `int(s)` of a run of digits -/
def DecimalDigits.toInt (digits : DecimalDigits) (s : PyStr) : ℕ :=
  s.foldl (fun n c => 10 * n + (digits.value c).getD 0) 0

def asciiDigits : DecimalDigits where
  value c := if 0x30 ≤ c ∧ c ≤ 0x39 then some (c - 0x30) else none
  ascii _ _ := rfl

theorem DecimalDigits.isDigit_iff (digits : DecimalDigits) {c : ℕ} (h : c < 0x80) :
    digits.isDigit c ↔ 0x30 ≤ c ∧ c ≤ 0x39 := by
  rw [isDigit, digits.ascii c h]
  split_ifs with hc <;> simp [hc]

theorem DecimalDigits.value_digit (digits : DecimalDigits) {d : ℕ} (h : d < 10) :
    digits.value (d + 0x30) = some d := by
  rw [digits.ascii (d + 0x30) (by omega), if_pos (by omega), Nat.add_sub_cancel]

/-- A run of `[ \t\f\v]` -/
def isSpaceRun (c : ℕ) : Bool := c = 0x20 || c = 0x9 || c = 0xc || c = 0xb

/-- Collapse runs of whitespace without joining lines that were separate. -/
def tidy (text : PyStr) : PyStr :=
  let text := collapseRuns isSpaceRun 0x20 [] text
  let text := [0xa].intercalate ((PyStr.splitlines text).map PyStr.strip)
  PyStr.strip (collapseRuns (· = 0xa) 0xa [] text)

def squeezed (text : PyStr) : PyStr := squeeze spaceCode 0x20 text

theorem squeezed_strip (s : PyStr) : squeezed (PyStr.strip s) = squeezed s := by
  rw [squeezed, PyStr.strip, squeeze_rdropWhile, squeeze_dropWhile]
  rfl

theorem spaceCode_iff {c : ℕ} (h : c < 0xd800) : spaceCode c ↔
    0x9 ≤ c ∧ c ≤ 0xd ∨ 0x1c ≤ c ∧ c ≤ 0x20 ∨ c = 0x85 ∨ c = 0xa0 ∨ c = 0x1680 ∨
      0x2000 ≤ c ∧ c ≤ 0x200a ∨ c = 0x2028 ∨ c = 0x2029 ∨ c = 0x202f ∨ c = 0x205f ∨
        c = 0x3000 := by
  have hvalid : c.isValidChar := Or.inl h
  have hcode : (Char.ofNat c).toNat = c := by
    rw [Char.ofNat, dif_pos hvalid]
    rfl
  simp only [spaceCode, isSpace, hcode, Bool.or_eq_true, Bool.and_eq_true, decide_eq_true_eq,
    or_assoc]

theorem spaceCode_of_isLineBreak {c : ℕ} (h : PyStr.isLineBreak c) : spaceCode c := by
  simp only [PyStr.isLineBreak, Bool.or_eq_true, Bool.and_eq_true, decide_eq_true_eq] at h
  rw [spaceCode_iff (by omega)]
  omega

theorem squeezed_splitlinesFrom (afterReturn : Bool) (line s : PyStr)
    (hline : afterReturn → line = []) :
    squeezed ([0xa].intercalate ((PyStr.splitlinesFrom afterReturn line s).map PyStr.strip)) =
      squeezed (line.reverse ++ s) := by
  have hbreak : spaceCode 0xa := by decide
  have hcons (l : PyStr) (ls : List PyStr) :
      squeezed ([0xa].intercalate ((l :: ls).map PyStr.strip)) =
        glue 0x20 (squeezed l) (squeezed ([0xa].intercalate (ls.map PyStr.strip))) := by
    rw [List.map_cons, squeezed, squeeze_intercalate_cons hbreak]
    exact congrArg (fun t => glue 0x20 t _) (squeezed_strip l)
  fun_induction PyStr.splitlinesFrom afterReturn line s with
  | case1 => rfl
  | case2 _ c line =>
      rw [hcons, List.append_nil]
      exact glue_nil_right
  | case3 afterReturn line c s hpair ih =>
      simp only [Bool.and_eq_true, decide_eq_true_eq] at hpair
      obtain ⟨hreturn, rfl⟩ := hpair
      obtain rfl := hline hreturn
      rw [ih (by simp), List.reverse_nil, List.nil_append, List.nil_append]
      exact (squeeze_cons_blank hbreak).symm
  | case4 afterReturn line c s _ hc ih =>
      rw [hcons, ih fun _ => rfl]
      exact (squeeze_append_blank (spaceCode_of_isLineBreak hc)).symm
  | case5 afterReturn line c s _ _ ih =>
      rw [ih (by simp), List.reverse_cons, List.append_assoc, List.singleton_append]

theorem squeezed_collapseRuns {inRun : ℕ → Bool} {one : ℕ} (hblank : ∀ c, inRun c → spaceCode c)
    (hone : spaceCode one) (s : PyStr) : squeezed (collapseRuns inRun one [] s) = squeezed s :=
  squeeze_collapseRuns hblank hone [] [] s (List.forall_mem_nil _)

theorem squeezed_tidy (text : PyStr) : squeezed (tidy text) = squeezed text := by
  have hspace (c : ℕ) (h : isSpaceRun c) : spaceCode c := by
    simp only [isSpaceRun, Bool.or_eq_true, decide_eq_true_eq] at h
    rw [spaceCode_iff (by omega)]
    omega
  have hbreak (c : ℕ) (h : decide (c = 0xa)) : spaceCode c := by
    obtain rfl := of_decide_eq_true h
    decide
  rw [tidy, squeezed_strip, squeezed_collapseRuns hbreak (by decide), PyStr.splitlines,
    squeezed_splitlinesFrom false [] _ (by simp), List.reverse_nil, List.nil_append,
    squeezed_collapseRuns hspace (by decide)]

theorem mem_squeezed {c : ℕ} {text : PyStr} (h : ¬ spaceCode c) : c ∈ squeezed text ↔ c ∈ text :=
  mem_squeeze (by decide) h

theorem mem_tidy {c : ℕ} {text : PyStr} (h : ¬ spaceCode c) : c ∈ tidy text ↔ c ∈ text := by
  rw [← mem_squeezed h, squeezed_tidy, mem_squeezed h]

theorem squeezed_eq_nil_of_blank {text : PyStr} (h : blank text) : squeezed text = [] :=
  squeeze_eq_nil.2 (List.all_eq_true.1 h)

end IcebergSST
