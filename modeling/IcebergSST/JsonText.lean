import IcebergSST.Adf

/-!
# JSON texts

`json.loads` of a text and `json.dumps` of an object of strings. An array or an object in
another one takes a call of its own, and the interpreter refuses to nest them deeper than its
stack allows. A number is read over and not kept.
-/

namespace IcebergSST.JsonText

open Adf

/-- What `json.loads` raises: a decode error, a number with too many digits, or the end of the
stack. -/
inductive LoadsError
  | decode
  | digits
  | recursion
  deriving DecidableEq, Repr

/-- A scanner reads one value off a text and leaves the rest. -/
abbrev Scan := PyStr → Except LoadsError (Json × PyStr)

def isWhitespace (c : ℕ) : Bool := c = 0x20 || c = 0x9 || c = 0xa || c = 0xd

def skipWhitespace (s : PyStr) : PyStr := s.dropWhile isWhitespace

def hexValue (c : ℕ) : Option ℕ :=
  if 0x30 ≤ c ∧ c ≤ 0x39 then some (c - 0x30)
  else if 0x61 ≤ c ∧ c ≤ 0x66 then some (c - 0x57)
  else if 0x41 ≤ c ∧ c ≤ 0x46 then some (c - 0x37)
  else none

def escaped (c : ℕ) : Option ℕ :=
  match c with
  | 0x22 | 0x5c | 0x2f => some c
  | 0x62 => some 0x8
  | 0x66 => some 0xc
  | 0x6e => some 0xa
  | 0x72 => some 0xd
  | 0x74 => some 0x9
  | _ => none

/-- A code unit of a string, and whether it was written as `\uXXXX`. -/
abbrev CodeUnit := Bool × ℕ

def push (unit : CodeUnit) (read : Except LoadsError (List CodeUnit × PyStr)) :
    Except LoadsError (List CodeUnit × PyStr) :=
  read.map fun (units, rest) => (unit :: units, rest)

/-- Where a scanner is in a string: after a backslash, or in a `\u` escape with so many digits
to come. -/
inductive StringMode
  | plain
  | backslash
  | hex (left unit : ℕ)

/-- The units of a string, from after its opening quote. -/
def scanUnits : StringMode → PyStr → Except LoadsError (List CodeUnit × PyStr)
  | _, [] => .error .decode
  | .plain, c :: s =>
      if c = 0x22 then .ok ([], s)
      else if c ≤ 0x1f then .error .decode
      else if c = 0x5c then scanUnits .backslash s
      else push (false, c) (scanUnits .plain s)
  | .backslash, c :: s =>
      if c = 0x75 then scanUnits (.hex 3 0) s
      else
        match escaped c with
        | none => .error .decode
        | some c => push (false, c) (scanUnits .plain s)
  | .hex left unit, c :: s =>
      match hexValue c with
      | none => .error .decode
      | some d =>
          if left = 0 then push (true, unit * 0x10 + d) (scanUnits .plain s)
          else scanUnits (.hex (left - 1) (unit * 0x10 + d)) s

/-- Two escapes that are a surrogate pair are one code point. -/
def joinPairs : List CodeUnit → PyStr
  | (true, high) :: (true, low) :: units =>
      if (0xd800 ≤ high ∧ high ≤ 0xdbff) ∧ 0xdc00 ≤ low ∧ low ≤ 0xdfff then
        (0x10000 + (high - 0xd800) * 0x400 + (low - 0xdc00)) :: joinPairs units
      else high :: joinPairs ((true, low) :: units)
  | (_, c) :: units => c :: joinPairs units
  | [] => []

def scanString (s : PyStr) : Except LoadsError (PyStr × PyStr) :=
  (scanUnits .plain s).map fun (units, rest) => (joinPairs units, rest)

def isDigit (c : ℕ) : Bool := 0x30 ≤ c && c ≤ 0x39

def maxStrDigits : ℕ := 4300

def skipFraction : PyStr → Option PyStr
  | 0x2e :: c :: s => if isDigit c then some (s.dropWhile isDigit) else none
  | _ => none

def skipSign : PyStr → PyStr
  | c :: s => if c = 0x2b ∨ c = 0x2d then s else c :: s
  | [] => []

def skipExponent : PyStr → Option PyStr
  | c :: s =>
      if c = 0x65 ∨ c = 0x45 then
        match skipSign s with
        | d :: s => if isDigit d then some (s.dropWhile isDigit) else none
        | [] => none
      else none
  | [] => none

/-- What comes after an integer part of so many digits. -/
def afterInteger (count : ℕ) (s : PyStr) : Except LoadsError PyStr :=
  let fraction := skipFraction s
  let exponent := skipExponent (fraction.getD s)
  if fraction = none ∧ exponent = none ∧ maxStrDigits < count then .error .digits
  else .ok (exponent.getD (fraction.getD s))

def scanNumber (s : PyStr) : Option (Except LoadsError PyStr) :=
  match if s.head? = some 0x2d then s.tail else s with
  | [] => none
  | c :: s =>
      if c = 0x30 then some (afterInteger 1 s)
      else if isDigit c then
        some (afterInteger (1 + (s.takeWhile isDigit).length) (s.dropWhile isDigit))
      else none

def names : List (PyStr × Json) :=
  [(pyStr "null", .null), (pyStr "true", .scalar), (pyStr "false", .scalar), (pyStr "NaN", .scalar),
    (pyStr "Infinity", .scalar), (pyStr "-Infinity", .scalar)]

def scanName (s : PyStr) : Option (Json × PyStr) :=
  names.findSome? fun (name, value) => if name <+: s then some (value, s.drop name.length) else none

/-- The elements of an array. Each takes a character, so as many turns as there are characters
are enough, and none is left where the text has ended. -/
def scanElements (scan : Scan) : ℕ → List Json → Scan
  | 0, _, _ => .error .decode
  | turns + 1, items, s => do
      let (item, s) ← scan s
      match skipWhitespace s with
      | c :: s =>
          if c = 0x5d then .ok (.array (items ++ [item]), s)
          else if c = 0x2c then scanElements scan turns (items ++ [item]) (skipWhitespace s)
          else .error .decode
      | [] => .error .decode

def scanArray (scan : Scan) (s : PyStr) : Except LoadsError (Json × PyStr) :=
  match skipWhitespace s with
  | c :: s =>
      if c = 0x5d then .ok (.array [], s) else scanElements scan (c :: s).length [] (c :: s)
  | [] => .error .decode

def setItem (fields : Mapping) (key : PyStr) (value : Json) : Mapping :=
  if fields.any fun field => field.1 = key then
    fields.map fun field => if field.1 = key then (key, value) else field
  else fields ++ [(key, value)]

/-- The character that has to come next, after whitespace. -/
def expect (c : ℕ) (s : PyStr) : Except LoadsError PyStr :=
  match skipWhitespace s with
  | d :: s => if d = c then .ok s else .error .decode
  | [] => .error .decode

/-- The members of an object, from after the opening quote of a key. -/
def scanMembers (scan : Scan) : ℕ → Mapping → Scan
  | 0, _, _ => .error .decode
  | turns + 1, fields, s => do
      let (key, s) ← scanString s
      let s ← expect 0x3a s
      let (value, s) ← scan (skipWhitespace s)
      match skipWhitespace s with
      | c :: s =>
          if c = 0x7d then .ok (.object (setItem fields key value), s)
          else if c = 0x2c then do
            let s ← expect 0x22 s
            scanMembers scan turns (setItem fields key value) s
          else .error .decode
      | [] => .error .decode

def scanObject (scan : Scan) (s : PyStr) : Except LoadsError (Json × PyStr) :=
  match skipWhitespace s with
  | c :: s =>
      if c = 0x7d then .ok (.object [], s)
      else if c = 0x22 then scanMembers scan s.length [] s
      else .error .decode
  | [] => .error .decode

def scanAtom (s : PyStr) : Except LoadsError (Json × PyStr) :=
  match scanName s with
  | some read => .ok read
  | none =>
      match scanNumber s with
      | some read => read.map fun rest => (.scalar, rest)
      | none => .error .decode

/-- What stands inside an array or an object is scanned in a call of its own. -/
def nest (enter : Option Scan) (inside : Scan → Scan) (s : PyStr) :
    Except LoadsError (Json × PyStr) :=
  match enter with
  | none => .error .recursion
  | some scan => inside scan s

/-- One value. `enter` scans the values in it, if there is room on the stack for the call. -/
def scanValue (enter : Option Scan) : Scan
  | [] => .error .decode
  | c :: s =>
      if c = 0x22 then (scanString s).map fun (text, s) => (.string text, s)
      else if c = 0x7b then nest enter scanObject s
      else if c = 0x5b then nest enter scanArray s
      else scanAtom (c :: s)

/-- `scan_once` with room for so many arrays and objects in one another -/
def scanOnce : ℕ → Scan
  | 0 => scanValue none
  | nesting + 1 => scanValue (some (scanOnce nesting))

def loads (nesting : ℕ) (s : PyStr) : Except LoadsError Json := do
  let (value, rest) ← scanOnce nesting (skipWhitespace s)
  if skipWhitespace rest = [] then return value else throw .decode

def hexDigit (d : ℕ) : ℕ := if d < 10 then d + 0x30 else d + 0x57

def unicodeEscape (unit : ℕ) : PyStr :=
  [0x5c, 0x75, hexDigit (unit / 0x1000), hexDigit (unit / 0x100 % 0x10),
    hexDigit (unit / 0x10 % 0x10), hexDigit (unit % 0x10)]

/-- A character of a string in ASCII. -/
def escape (c : ℕ) : PyStr :=
  if c = 0x22 ∨ c = 0x5c then [0x5c, c]
  else if 0x20 ≤ c ∧ c ≤ 0x7e then [c]
  else if c = 0x8 then [0x5c, 0x62]
  else if c = 0x9 then [0x5c, 0x74]
  else if c = 0xa then [0x5c, 0x6e]
  else if c = 0xc then [0x5c, 0x66]
  else if c = 0xd then [0x5c, 0x72]
  else if c < 0x10000 then unicodeEscape c
  else unicodeEscape (0xd800 + (c - 0x10000) / 0x400) ++
    unicodeEscape (0xdc00 + (c - 0x10000) % 0x400)

def quote (s : PyStr) : PyStr := 0x22 :: (s.flatMap escape ++ [0x22])

/-- `json.dumps(d, separators=(",", ":"))` of an object of strings -/
def dumps (fields : List (PyStr × PyStr)) : PyStr :=
  0x7b :: ([0x2c].intercalate (fields.map fun (key, value) => quote key ++ 0x3a :: quote value) ++
    [0x7d])

def Plain (c : ℕ) : Prop := (0x20 ≤ c ∧ c ≤ 0x7e) ∧ c ≠ 0x22 ∧ c ≠ 0x5c

instance (c : ℕ) : Decidable (Plain c) := inferInstanceAs (Decidable (_ ∧ _))

theorem quote_plain {s : PyStr} (h : ∀ c ∈ s, Plain c) : quote s = 0x22 :: (s ++ [0x22]) := by
  have hsame : s.flatMap escape = s := by
    induction s with
    | nil => rfl
    | cons c s ih =>
        obtain ⟨⟨hrange, hquote, hslash⟩, hrest⟩ := List.forall_mem_cons.1 h
        rw [List.flatMap_cons, ih hrest, escape, if_neg (by omega), if_pos hrange]
        rfl
  rw [quote, hsame]

theorem skipWhitespace_cons {c : ℕ} (h : isWhitespace c = false) (s : PyStr) :
    skipWhitespace (c :: s) = c :: s := by
  rw [skipWhitespace, List.dropWhile_cons, if_neg (by rw [h]; exact Bool.false_ne_true)]

theorem scanUnits_plain {text : PyStr} (h : ∀ c ∈ text, Plain c) (s : PyStr) :
    scanUnits .plain (text ++ 0x22 :: s) = .ok (text.map (false, ·), s) := by
  induction text with
  | nil => rfl
  | cons c text ih =>
      obtain ⟨⟨hrange, hquote, hslash⟩, hrest⟩ := List.forall_mem_cons.1 h
      rw [List.cons_append, scanUnits, if_neg hquote, if_neg (by omega), if_neg hslash, ih hrest]
      rfl

theorem joinPairs_plain (text : PyStr) : joinPairs (text.map (false, ·)) = text := by
  induction text with
  | nil => rfl
  | cons c text ih =>
      cases text with
      | nil => rfl
      | cons c' text => exact congrArg (c :: ·) ih

theorem scanString_plain {text : PyStr} (h : ∀ c ∈ text, Plain c) (s : PyStr) :
    scanString (text ++ 0x22 :: s) = .ok (text, s) := by
  rw [scanString, scanUnits_plain h]
  exact congrArg (fun read => Except.ok (read, s)) (joinPairs_plain text)

theorem scanValue_plain {text : PyStr} (h : ∀ c ∈ text, Plain c) (enter : Option Scan) (s : PyStr) :
    scanValue enter (0x22 :: (text ++ 0x22 :: s)) = .ok (.string text, s) := by
  rw [scanValue, if_pos rfl, scanString_plain h]
  rfl

theorem expect_cons {c : ℕ} (h : isWhitespace c = false) (s : PyStr) :
    expect c (c :: s) = .ok s := by
  rw [expect, skipWhitespace_cons h]
  exact if_pos rfl

theorem scanOnce_eq (nesting : ℕ) : ∃ enter, scanOnce nesting = scanValue enter := by
  cases nesting with
  | zero => exact ⟨none, rfl⟩
  | succ nesting => exact ⟨some (scanOnce nesting), rfl⟩

section

variable {key value : PyStr} (hkey : ∀ c ∈ key, Plain c) (hvalue : ∀ c ∈ value, Plain c)
  (enter : Option Scan) (turns : ℕ) (fields : Mapping) (s : PyStr)

include hkey hvalue

theorem scanMembers_last :
    scanMembers (scanValue enter) (turns + 1) fields
        (key ++ 0x22 :: 0x3a :: 0x22 :: (value ++ 0x22 :: 0x7d :: s)) =
      .ok (.object (setItem fields key (.string value)), s) := by
  rw [scanMembers, scanString_plain hkey]
  simp only [bind, Except.bind]
  rw [expect_cons (by decide)]
  simp only
  rw [skipWhitespace_cons (by decide), scanValue_plain hvalue]
  simp only
  rw [skipWhitespace_cons (by decide)]
  rfl

theorem scanMembers_next :
    scanMembers (scanValue enter) (turns + 1) fields
        (key ++ 0x22 :: 0x3a :: 0x22 :: (value ++ 0x22 :: 0x2c :: 0x22 :: s)) =
      scanMembers (scanValue enter) turns (setItem fields key (.string value)) s := by
  rw [scanMembers, scanString_plain hkey]
  simp only [bind, Except.bind]
  rw [expect_cons (by decide)]
  simp only
  rw [skipWhitespace_cons (by decide), scanValue_plain hvalue]
  simp only
  rw [skipWhitespace_cons (by decide)]
  simp only [expect_cons (show isWhitespace 0x22 = false by decide)]
  rfl

end

section

variable {key key' value value' : PyStr} (hkey : ∀ c ∈ key, Plain c) (hkey' : ∀ c ∈ key', Plain c)
  (hvalue : ∀ c ∈ value, Plain c) (hvalue' : ∀ c ∈ value', Plain c)

include hkey hkey' hvalue hvalue'

theorem dumps_plain : dumps [(key, value), (key', value')] =
    0x7b :: 0x22 :: (key ++ 0x22 :: 0x3a :: 0x22 :: (value ++ 0x22 :: 0x2c :: 0x22 ::
      (key' ++ 0x22 :: 0x3a :: 0x22 :: (value' ++ 0x22 :: [0x7d])))) := by
  simp [dumps, quote_plain hkey, quote_plain hkey', quote_plain hvalue, quote_plain hvalue',
    List.intercalate]

theorem dumps_printable : ∀ c ∈ dumps [(key, value), (key', value')], 0x20 ≤ c ∧ c ≤ 0x7e := by
  have hrange {s : PyStr} (h : ∀ c ∈ s, Plain c) : ∀ c ∈ s, 0x20 ≤ c ∧ c ≤ 0x7e :=
    fun c hc => (h c hc).1
  rw [dumps_plain hkey hkey' hvalue hvalue']
  simp only [List.forall_mem_cons, List.forall_mem_append]
  refine ⟨by decide, by decide, hrange hkey, by decide, by decide, by decide, hrange hvalue,
    by decide, by decide, by decide, hrange hkey', by decide, by decide, by decide,
    hrange hvalue', by decide, by decide, List.forall_mem_nil _⟩

/-- An object of two plain strings reads as it was written, given room for one call. -/
theorem loads_dumps (hne : key ≠ key') (nesting : ℕ) :
    loads (nesting + 1) (dumps [(key, value), (key', value')]) =
      .ok (.object [(key, .string value), (key', .string value')]) := by
  obtain ⟨enter, henter⟩ := scanOnce_eq nesting
  have hobject : scanOnce (nesting + 1) (dumps [(key, value), (key', value')]) =
      .ok (.object [(key, .string value), (key', .string value')], []) := by
    rw [dumps_plain hkey hkey' hvalue hvalue', scanOnce, scanValue, if_neg (by decide), if_pos rfl,
      nest, scanObject,
      skipWhitespace_cons (by decide), henter]
    simp only
    rw [if_neg (by decide), if_pos trivial]
    obtain ⟨turns, hturns⟩ : ∃ turns, (key ++ 0x22 :: 0x3a :: 0x22 :: (value ++ 0x22 :: 0x2c ::
        0x22 :: (key' ++ 0x22 :: 0x3a :: 0x22 :: (value' ++ 0x22 :: [0x7d])))).length =
          turns + 1 + 1 := by
      refine ⟨key.length + value.length + key'.length + value'.length + 9, ?_⟩
      simp only [List.length_append, List.length_cons, List.length_nil]
      omega
    rw [hturns, scanMembers_next hkey hvalue, scanMembers_last hkey' hvalue']
    simp [setItem, hne]
  have hspace : skipWhitespace (dumps [(key, value), (key', value')]) =
      dumps [(key, value), (key', value')] := skipWhitespace_cons (by decide) _
  rw [loads, hspace, hobject]
  rfl

end

end IcebergSST.JsonText
