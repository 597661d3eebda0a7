import IcebergSST.Library.Scanning
import IcebergSST.PyText
import Mathlib.Data.Nat.Digits.Defs

/-!
# Wiki markup

`wiki_to_text` sets the bodies of code blocks aside, rewrites what is left with one pattern
after another, and puts the bodies back. Each pattern is read off its regular expression:
where a bounded repetition is followed by something it cannot repeat, there is one way to
match it.
-/

namespace IcebergSST.Wiki

open Scanning

/-- `[…]{0,most}`, before something that is not in the class. -/
def upTo (inClass : ℕ → Bool) (most : ℕ) (s : PyStr) : Option (PyStr × PyStr) :=
  let run := s.takeWhile inClass
  if run.length ≤ most then some (run, s.dropWhile inClass) else none

def one (c : ℕ) : PyStr → Option PyStr
  | [] => none
  | d :: s => if d = c then some s else none

/-- A literal of lower-case ASCII letters, under `IGNORECASE`. -/
def ignoringCase (literal : PyStr) (s : PyStr) : Option PyStr :=
  if (s.take literal.length).map asciiLower = literal then some (s.drop literal.length) else none

/-- `.{0,most}?`, under `DOTALL`: up to the first place where the rest of the pattern matches. -/
def lazily (stop : PyStr → Option PyStr) : ℕ → PyStr → Option (PyStr × PyStr)
  | _, [] => (stop []).map fun rest => ([], rest)
  | most, c :: s =>
      match stop (c :: s) with
      | some rest => some ([], rest)
      | none =>
          if most = 0 then none
          else (lazily stop (most - 1) s).map fun found => (c :: found.1, found.2)

def atLineStart (prev : Option ℕ) : Bool := prev.all (· = 0xa)

/-- `[a-z]` under `IGNORECASE`: the four others are case variants of `i`, `s` and `k`. -/
def isLetter (c : ℕ) : Bool :=
  isAsciiAlpha c || c = 0x130 || c = 0x131 || c = 0x17f || c = 0x212a

def isNameChar (c : ℕ) : Bool := isLetter c || (0x30 ≤ c && c ≤ 0x39) || c = 0x5f || c = 0x2d

def isBlankOrTab (c : ℕ) : Bool := c = 0x20 || c = 0x9

/-- `[^}\n]` -/
def inMarker (c : ℕ) : Bool := c ≠ 0x7d && c ≠ 0xa

/-- `[^\]\n]` -/
def inBrackets (c : ℕ) : Bool := c ≠ 0x5d && c ≠ 0xa

/-- `[^\]|\n]` -/
def inLabel (c : ℕ) : Bool := inBrackets c && c ≠ 0x7c

/-- `(?::[^}\n]{0,4096})?\}`; the parameter is what is captured. -/
def parameter (s : PyStr) : Option (PyStr × PyStr) :=
  match one 0x3a s with
  | some s => do
      let (param, s) ← upTo inMarker 4096 s
      let rest ← one 0x7d s
      return (param, rest)
  | none => do
      let rest ← one 0x7d s
      return ([], rest)

/-- `\{\1\}` -/
def closing (keyword : PyStr) (s : PyStr) : Option PyStr := do
  one 0x7d (← ignoringCase keyword (← one 0x7b s))

def heldBlockOf (keyword : PyStr) (s : PyStr) : Option (PyStr × PyStr) := do
  let (_, s) ← parameter (← ignoringCase keyword (← one 0x7b s))
  lazily (closing keyword) 1000000 s

/-- `_WIKI_HELD_BLOCKS`; the body is what is captured. -/
def heldBlock : Pattern ℕ PyStr := fun _ s =>
  (heldBlockOf (pyStr "code") s).or (heldBlockOf (pyStr "noformat") s)

def monospace : Pattern ℕ PyStr := fun _ s => do
  let s ← one 0x7b (← one 0x7b s)
  lazily (fun s => (one 0x7d s).bind (one 0x7d)) 4096 s

def link : Pattern ℕ (PyStr × PyStr) := fun _ s => do
  let (label, s) ← upTo inLabel 1024 (← one 0x5b s)
  let (target, s) ← upTo inBrackets 2048 (← one 0x7c s)
  let rest ← one 0x5d s
  return ((label, target), rest)

def bareLink : Pattern ℕ PyStr := fun _ s => do
  let (target, s) ← upTo inLabel 2048 (← one 0x5b s)
  let rest ← one 0x5d s
  return (target, rest)

/-- `_WIKI_MACRO`; the parameter is what is captured. -/
def macroMarker : Pattern ℕ PyStr := fun _ s => do
  match ← one 0x7b s with
  | [] => none
  | c :: s =>
      if isLetter c then
        let (_, s) ← upTo isNameChar 64 s
        parameter s
      else none

/-- `(?:h[1-6]|bq)\.` -/
def prefixMark : PyStr → Option PyStr
  | c :: d :: s =>
      if asciiLower c = 0x68 ∧ 0x31 ≤ d ∧ d ≤ 0x36 ∨ asciiLower c = 0x62 ∧ asciiLower d = 0x71 then
        one 0x2e s
      else none
  | _ => none

def linePrefix : Pattern ℕ Unit := fun prev s =>
  if atLineStart prev then do
    let (_, s) ← upTo isBlankOrTab 16 s
    let s ← prefixMark s
    return ((), s.drop (min 4 (s.takeWhile isBlankOrTab).length))
  else none

/-- `(?:[*#]{1,8}|-{1,2}|\d{1,4}\.)` before a blank -/
def bulletMark (digits : DecimalDigits) : PyStr → Option PyStr
  | [] => none
  | c :: s =>
      if c = 0x2a ∨ c = 0x23 then (upTo (fun c => c = 0x2a || c = 0x23) 7 s).map Prod.snd
      else if c = 0x2d then (upTo (· = 0x2d) 1 s).map Prod.snd
      else if digits.isDigit c then do
        let (_, s) ← upTo digits.isDigit 3 s
        one 0x2e s
      else none

def bullet (digits : DecimalDigits) : Pattern ℕ Unit := fun prev s =>
  if atLineStart prev then do
    let (_, s) ← upTo isBlankOrTab 16 s
    let s ← bulletMark digits s
    if s.head?.any isBlankOrTab then return ((), s.dropWhile isBlankOrTab) else none
  else none

def table : Pattern ℕ Unit := fun _ s => do
  let s ← one 0x7c s
  return ((), (one 0x7c s).getD s)

/-- `_HELD`; the number is what is captured. -/
def held (digits : DecimalDigits) : Pattern ℕ ℕ := fun _ s => do
  let s ← one 0 s
  let run := s.takeWhile digits.isDigit
  let rest ← one 0 (s.dropWhile digits.isDigit)
  if run = [] then none else return (digits.toInt run, rest)

def decimal (n : ℕ) : PyStr :=
  if n = 0 then [0x30] else ((Nat.digits 10 n).map (· + 0x30)).reverse

/-- What stands for the block of a number: a NUL on either side of it. -/
def placeholder (n : ℕ) : PyStr := 0 :: (decimal n ++ [0])

/-- The bodies in their order, and the text with a placeholder for each. -/
def number : ℕ → List (ℕ ⊕ PyStr) → List (ℕ ⊕ ℕ)
  | _, [] => []
  | n, .inl c :: scanned => .inl c :: number n scanned
  | n, .inr _ :: scanned => .inr n :: number (n + 1) scanned

def blocks (value : PyStr) : List (ℕ ⊕ PyStr) := scan heldBlock (value.filter (· ≠ 0))

def heldBodies (value : PyStr) : List PyStr := captures (blocks value)

def withPlaceholders (value : PyStr) : PyStr := flat placeholder (number 0 (blocks value))

/-- The text that the macro markers are taken out of. -/
def beforeMacros (value : PyStr) : PyStr :=
  let text := sub monospace id (withPlaceholders value)
  let text := sub link (fun found => found.1 ++ 0x20 :: found.2) text
  sub bareLink id text

def flatten (digits : DecimalDigits) (value : PyStr) : PyStr :=
  let text := sub macroMarker (fun _ => [0x20]) (beforeMacros value)
  let text := sub linePrefix (fun _ => []) text
  let text := sub (bullet digits) (fun _ => []) text
  sub table (fun _ => [0x20]) text

def wikiToText (digits : DecimalDigits) (value : PyStr) : PyStr :=
  if value = [] then []
  else tidy (sub (held digits) (fun n => (heldBodies value)[n]?.getD []) (flatten digits value))

end IcebergSST.Wiki
