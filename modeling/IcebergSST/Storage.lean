import IcebergSST.Wiki

/-!
# Storage format

`storage_to_text` sets the bodies of CDATA sections aside, drops the elements that are
metadata, makes a newline or a blank of every tag that is left, resolves the character
references and puts the bodies back. No parser is involved: an element is dropped from its
first tag to the first end tag of the same name.
-/

namespace IcebergSST.Storage

open Scanning

open Wiki (one upTo lazily isLetter placeholder number held)

/-- What the patterns and `html.unescape` look up. -/
structure Tables where
  /-- `\\w` -/
  isWord : ℕ → Bool
  isWord_ascii : ∀ c < 0x80, isWord c = (isAsciiAlpha c || (0x30 ≤ c && c ≤ 0x39) || c = 0x5f)
  digits : DecimalDigits
  /-- `html.entities.html5` -/
  html5 : PyStr → Option PyStr
  html5_noNul : ∀ name text, html5 name = some text → 0 ∉ text

/-- The ASCII letter that `IGNORECASE` takes a character for. -/
def caseless (c : ℕ) : ℕ :=
  if c = 0x130 ∨ c = 0x131 then 0x69
  else if c = 0x17f then 0x73
  else if c = 0x212a then 0x6b
  else asciiLower c

/-- A literal of lower-case ASCII characters, under `IGNORECASE`; the match is captured. -/
def literal (l s : PyStr) : Option (PyStr × PyStr) :=
  if (s.take l.length).map caseless = l then some (s.take l.length, s.drop l.length) else none

def exactly (l s : PyStr) : Option PyStr :=
  if s.take l.length = l then some (s.drop l.length) else none

/-- The lower case of a character; of what a group captures, the backreference compares it. -/
def simpleLower (c : ℕ) : ℕ :=
  if c = 0x130 then 0x69 else if c = 0x212a then 0x6b else asciiLower c

/-- `\1`, under `IGNORECASE` -/
def backreference (group s : PyStr) : Option PyStr :=
  if (s.take group.length).map simpleLower = group.map simpleLower then
    some (s.drop group.length)
  else none

def notClose (c : ℕ) : Bool := c ≠ 0x3e

/-- `[^>]{0,4096}>` -/
def tagEnd (s : PyStr) : Option PyStr := do
  let (_, s) ← upTo notClose 4096 s
  one 0x3e s

/-- `[^>]{0,4096}/>` -/
def emptyTagEnd (s : PyStr) : Option PyStr :=
  let run := s.takeWhile notClose
  if run.getLast? = some 0x2f ∧ run.length ≤ 4097 then one 0x3e (s.dropWhile notClose) else none

section

variable (tables : Tables)

/-- `\b` between what was matched and what follows. -/
def boundary (found : PyStr × PyStr) : Bool :=
  found.1.getLast?.any tables.isWord != found.2.head?.any tables.isWord

/-- `[a-z-]` -/
def isResourceChar (c : ℕ) : Bool := isLetter c || c = 0x2d

/-- `ri:[a-z-]+\b`: what it can match, in the order it is tried, and what follows. -/
def resources (s : PyStr) : List (PyStr × PyStr) :=
  match literal (pyStr "ri:") s with
  | none => []
  | some (scheme, s) =>
      ((List.range' 1 (s.takeWhile isResourceChar).length).reverse.map fun n =>
        (scheme ++ s.take n, s.drop n)).filter (boundary tables)

/-- `(ac:parameter|ri:[a-z-]+)\b` -/
def droppedNames (s : PyStr) : List (PyStr × PyStr) :=
  (literal (pyStr "ac:parameter") s).toList.filter (boundary tables) ++ resources tables s

/-- `</\1>` -/
def endTag (group s : PyStr) : Option PyStr := do
  one 0x3e (← backreference group (← one 0x2f (← one 0x3c s)))

/-- An opening tag, up to the first end tag of the same name. -/
def element (s : PyStr) : Option PyStr := do
  let s ← one 0x3c s
  (droppedNames tables s).findSome? fun (group, s) => do
    let (_, rest) ← lazily (endTag group) 1000000 (← tagEnd s)
    return rest

def emptyElement (s : PyStr) : Option PyStr := do
  let s ← one 0x3c s
  (resources tables s).findSome? fun (_, s) => emptyTagEnd s

/-- `_CDATA`; the body is what is captured. -/
def cdata : Pattern ℕ PyStr := fun _ s => do
  let s ← exactly (pyStr "<![CDATA[") s
  lazily (exactly (pyStr "]]>")) s.length s

def droppedElements : Pattern ℕ Unit := fun _ s =>
  ((element tables s).or (emptyElement tables s)).map fun rest => ((), rest)

/-- `h[1-6]` -/
def heading (s : PyStr) : Option (PyStr × PyStr) :=
  match literal (pyStr "h") s with
  | some (h, d :: rest) => if 0x31 ≤ d ∧ d ≤ 0x36 then some (h ++ [d], rest) else none
  | _ => none

def breakNames (s : PyStr) : List (PyStr × PyStr) :=
  (["p", "br", "div", "li", "tr"].filterMap fun name => literal (pyStr name) s) ++
    (heading s).toList ++
    ["pre", "blockquote", "ac:structured-macro"].filterMap fun name => literal (pyStr name) s

def breaks : Pattern ℕ Unit := fun _ s => do
  let s ← one 0x3c s
  let rest ← ((breakNames ((one 0x2f s).getD s)).filter (boundary tables)).findSome? fun found =>
    tagEnd found.2
  return ((), rest)

def tag : Pattern ℕ Unit := fun _ s => do
  let rest ← tagEnd (← one 0x3c s)
  return ((), rest)

def isDecimal (c : ℕ) : Bool := 0x30 ≤ c && c ≤ 0x39

def isHexadecimal (c : ℕ) : Bool :=
  isDecimal c || (0x41 ≤ c && c ≤ 0x46) || (0x61 ≤ c && c ≤ 0x66)

/-- `[^\t\n\f <&#;]` -/
def inReference (c : ℕ) : Bool := c ∉ [0x9, 0xa, 0xc, 0x20, 0x3c, 0x26, 0x23, 0x3b]

/-- A run that is not empty, and `;?`. -/
def terminated (front run rest : PyStr) : Option (PyStr × PyStr) :=
  if run = [] then none
  else
    match one 0x3b rest with
    | some rest => some (front ++ run ++ [0x3b], rest)
    | none => some (front ++ run, rest)

def decimalReference (s : PyStr) : Option (PyStr × PyStr) := do
  let s ← one 0x23 s
  terminated [0x23] (s.takeWhile isDecimal) (s.dropWhile isDecimal)

def hexReference : PyStr → Option (PyStr × PyStr)
  | 0x23 :: x :: s =>
      if x = 0x78 ∨ x = 0x58 then
        terminated [0x23, x] (s.takeWhile isHexadecimal) (s.dropWhile isHexadecimal)
      else none
  | _ => none

def namedReference (s : PyStr) : Option (PyStr × PyStr) :=
  let run := (s.takeWhile inReference).take 32
  terminated [] run (s.drop run.length)

def charref : Pattern ℕ PyStr := fun _ s => do
  let s ← one 0x26 s
  (decimalReference s).or ((hexReference s).or (namedReference s))

def hexDigit (c : ℕ) : ℕ :=
  if isDecimal c then c - 0x30 else asciiLower c - 0x57

def invalidCharrefs : List (ℕ × ℕ) :=
  [(0x0, 0xfffd), (0xd, 0xd), (0x80, 0x20ac), (0x81, 0x81), (0x82, 0x201a), (0x83, 0x192),
    (0x84, 0x201e), (0x85, 0x2026), (0x86, 0x2020), (0x87, 0x2021), (0x88, 0x2c6),
    (0x89, 0x2030), (0x8a, 0x160), (0x8b, 0x2039), (0x8c, 0x152), (0x8d, 0x8d), (0x8e, 0x17d),
    (0x8f, 0x8f), (0x90, 0x90), (0x91, 0x2018), (0x92, 0x2019), (0x93, 0x201c), (0x94, 0x201d),
    (0x95, 0x2022), (0x96, 0x2013), (0x97, 0x2014), (0x98, 0x2dc), (0x99, 0x2122), (0x9a, 0x161),
    (0x9b, 0x203a), (0x9c, 0x153), (0x9d, 0x9d), (0x9e, 0x17e), (0x9f, 0x178)]

def isInvalidCodepoint (n : ℕ) : Bool :=
  (0x1 ≤ n && n ≤ 0x8) || n = 0xb || (0xe ≤ n && n ≤ 0x1f) || (0x7f ≤ n && n ≤ 0x9f) ||
    (0xfdd0 ≤ n && n ≤ 0xfdef) || 0xfffe ≤ n % 0x10000

def numericText (n : ℕ) : PyStr :=
  match invalidCharrefs.lookup n with
  | some c => [c]
  | none =>
      if (0xd800 ≤ n ∧ n ≤ 0xdfff) ∨ 0x10ffff < n then [0xfffd]
      else if isInvalidCodepoint n then []
      else [n]

/-- `int(s)` refuses more digits than this. -/
def maxStrDigits : ℕ := 4300

/-- `html._replace_charref`; none is the exception of `int`. -/
def replaceCharref : PyStr → Option PyStr
  | 0x23 :: s =>
      let number := s.rdropWhile (· = 0x3b)
      match number with
      | [] => none
      | x :: number =>
          if x = 0x78 ∨ x = 0x58 then
            some (numericText (number.foldl (fun n c => 0x10 * n + hexDigit c) 0))
          else if maxStrDigits < (x :: number).length then none
          else some (numericText ((x :: number).foldl (fun n c => 10 * n + (c - 0x30)) 0))
  | s =>
      match tables.html5 s with
      | some text => some text
      | none =>
          let found := (List.range' 2 (s.length - 2)).reverse.findSome? fun x =>
            (tables.html5 (s.take x)).map (· ++ s.drop x)
          some (found.getD (0x26 :: s))

def resolved (part : ℕ ⊕ PyStr) : Option PyStr :=
  part.elim (fun c => some [c]) (replaceCharref tables)

def unescape (s : PyStr) : Option PyStr := do
  return (← (scan charref s).mapM (resolved tables)).flatten

def bodies (storage : PyStr) : List PyStr := captures (scan cdata (storage.filter (· ≠ 0)))

def withPlaceholders (storage : PyStr) : PyStr :=
  flat placeholder (number 0 (scan cdata (storage.filter (· ≠ 0))))

def withoutTags (storage : PyStr) : PyStr :=
  let text := sub (droppedElements tables) (fun _ => [0x20]) (withPlaceholders storage)
  let text := sub (breaks tables) (fun _ => [0xa]) text
  sub tag (fun _ => [0x20]) text

def storageToText (storage : PyStr) : Option PyStr :=
  if storage = [] then some []
  else do
    let text ← unescape tables (withoutTags tables storage)
    return tidy (sub (held tables.digits) (fun n => (bodies storage)[n]?.getD []) text)

end

end IcebergSST.Storage
