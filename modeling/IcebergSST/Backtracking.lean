import IcebergSST.PyText

/-!
# The backtracking check

What `assert_no_catastrophic_backtracking` computes of a pattern: the structural characters
with their positions, the groups, the quantifiers with more than one count, and the first
group that is repeated with a choice in it.
-/

namespace IcebergSST.Backtracking

/-- The loop to the `]` that closes a class; `index` is the position of the text. -/
def skipMembers : ℕ → PyStr → ℕ
  | index, [] => index + 1
  | index, c :: s =>
      if c = 0x5d then index + 1
      else if c = 0x5c then
        match s with
        | [] => index + 3
        | _ :: s => skipMembers (index + 2) s
      else skipMembers (index + 1) s

def skipLiteralClose (index : ℕ) : PyStr → ℕ
  | [] => skipMembers index []
  | c :: s => if c = 0x5d then skipMembers (index + 1) s else skipMembers index (c :: s)

/-- The index just past a class, from what follows its `[`. -/
def skipCharacterClass (index : ℕ) : PyStr → ℕ
  | [] => skipLiteralClose index []
  | c :: s => if c = 0x5e then skipLiteralClose (index + 1) s else skipLiteralClose index (c :: s)

/-- The index is `next` once the characters before it are skipped. -/
def scanFrom : ℕ → ℕ → PyStr → List (ℕ × ℕ)
  | _, _, [] => []
  | index, next, c :: s =>
      if index < next then scanFrom (index + 1) next s
      else if c = 0x5c then scanFrom (index + 1) (index + 2) s
      else if c = 0x5b then scanFrom (index + 1) (skipCharacterClass (index + 1) s) s
      else (index, c) :: scanFrom (index + 1) (index + 1) s

def scan (pattern : PyStr) : List (ℕ × ℕ) := scanFrom 0 0 pattern

def groupSpansFrom : List ℕ → List (ℕ × ℕ) → List (ℕ × ℕ)
  | _, [] => []
  | stack, (index, c) :: chars =>
      if c = 0x28 then groupSpansFrom (index :: stack) chars
      else if c = 0x29 then
        match stack with
        | [] => groupSpansFrom [] chars
        | o :: stack => (o, index) :: groupSpansFrom stack chars
      else groupSpansFrom stack chars

def groupSpans (pattern : PyStr) : List (ℕ × ℕ) := groupSpansFrom [] (scan pattern)

def hasOwnAlternationFrom (openIndex closeIndex : ℕ) : ℤ → List (ℕ × ℕ) → Bool
  | _, [] => false
  | depth, (index, c) :: chars =>
      if ¬ (openIndex < index ∧ index < closeIndex) then
        hasOwnAlternationFrom openIndex closeIndex depth chars
      else if c = 0x28 then hasOwnAlternationFrom openIndex closeIndex (depth + 1) chars
      else if c = 0x29 then hasOwnAlternationFrom openIndex closeIndex (depth - 1) chars
      else if c = 0x7c ∧ depth = 0 then true
      else hasOwnAlternationFrom openIndex closeIndex depth chars

def hasOwnAlternation (pattern : PyStr) (openIndex closeIndex : ℕ) : Bool :=
  hasOwnAlternationFrom openIndex closeIndex 0 (scan pattern)

def maxStrDigits : ℕ := 4300

def pyNat (digits : DecimalDigits) (s : PyStr) : Option ℕ :=
  let groups := s.splitOn 0x5f
  let number := groups.flatten
  if groups.all (fun group => group ≠ [] ∧ group.all digits.isDigit) ∧
      number.length ≤ maxStrDigits then some (digits.toInt number)
  else none

/-- What `int` skips around a number: whitespace, the four separators of ASCII excepted. -/
def intSpace (c : ℕ) : Bool := spaceCode c && !(0x1c ≤ c && c ≤ 0x1f)

/-- `int(s)`, where a `ValueError` is `none`. -/
def pyInt (digits : DecimalDigits) (s : PyStr) : Option ℤ :=
  match (s.dropWhile intSpace).rdropWhile intSpace with
  | [] => none
  | c :: rest =>
      if c = 0x2d then (pyNat digits rest).map fun n => -n
      else if c = 0x2b then (pyNat digits rest).map Int.ofNat
      else (pyNat digits (c :: rest)).map Int.ofNat

def isVariableRepetition (digits : DecimalDigits) (spec : PyStr) : Bool :=
  if 0x2c ∉ spec then false
  else
    let low := spec.takeWhile (· ≠ 0x2c)
    let high := (spec.dropWhile (· ≠ 0x2c)).drop 1
    if PyStr.strip high = [] then true
    else
      match (if PyStr.strip low = [] then some 0 else pyInt digits (PyStr.strip low)),
        pyInt digits high with
      | some low, some high => low ≠ high
      | _, _ => false

/-- Whether the brace before a text opens a repetition with more than one count. -/
def braceVaries (digits : DecimalDigits) (s : PyStr) : Bool :=
  s.contains 0x7d && isVariableRepetition digits (s.takeWhile (· ≠ 0x7d))

def varies (digits : DecimalDigits) (c : ℕ) (s : PyStr) : Bool :=
  c = 0x2a || c = 0x2b || (c = 0x7b && braceVaries digits s)

def unboundedQuantifierPositions (digits : DecimalDigits) (pattern : PyStr) : List ℕ :=
  ((scan pattern).filter fun p => varies digits p.2 (pattern.drop (p.1 + 1))).map Prod.fst

def followedByUnbounded (digits : DecimalDigits) (pattern : PyStr) (closeIndex : ℕ) : Bool :=
  match pattern.drop (closeIndex + 1) with
  | [] => false
  | c :: s => varies digits c s

/-- A `RulePackError`: the offset it names, and the part of the pattern it shows. -/
inductive RulePackError
  | nestedUnboundedQuantifier (offset : ℕ) (shown : PyStr)
  | repeatedAlternation (offset : ℕ) (shown : PyStr)
  deriving DecidableEq

def checkGroup (digits : DecimalDigits) (pattern : PyStr) (span : ℕ × ℕ) : Option RulePackError :=
  let shown := (pattern.drop span.1).take (span.2 + 2 - span.1)
  if ¬ followedByUnbounded digits pattern span.2 then none
  else if (unboundedQuantifierPositions digits pattern).any
      fun position => span.1 < position && position < span.2 then
    some (.nestedUnboundedQuantifier span.1 shown)
  else if hasOwnAlternation pattern span.1 span.2 then some (.repeatedAlternation span.1 shown)
  else none

def assertNoCatastrophicBacktracking (digits : DecimalDigits) (pattern : PyStr) :
    Except RulePackError Unit :=
  match (groupSpans pattern).findSome? (checkGroup digits pattern) with
  | none => .ok ()
  | some error => .error error

end IcebergSST.Backtracking
