import Mathlib.Tactic

/-!
# What a suppression covers

The matcher the engine's pre-filter and the API's ingest share, with the glob matching
it rests on, and the suppressions that are live for a source at an instant.
-/

namespace IcebergSST

inductive GlobItem
  | star
  | any
  | set (negated : Bool) (ranges : List (Char × Char))
  | lit (c : Char)
  deriving DecidableEq, Repr

/-- The members of a bracket expression. A range whose ends are out of order is empty. -/
def globRanges : List Char → List (Char × Char)
  | [] => []
  | c :: '-' :: d :: rest => (c, d) :: globRanges rest
  | c :: rest => (c, c) :: globRanges rest

/-- A bracket that never closes is an ordinary character; `!` negates, and a bracket
right after the opening is a member. The bound is the length of the pattern. -/
def globItems : ℕ → List Char → List GlobItem
  | 0, _ => []
  | _ + 1, [] => []
  | n + 1, '*' :: rest => .star :: globItems n rest
  | n + 1, '?' :: rest => .any :: globItems n rest
  | n + 1, '[' :: rest =>
      let negated := rest.head? = some '!'
      let body := if negated then rest.tail else rest
      let first := if body.head? = some ']' then 1 else 0
      let members := body.take first ++ (body.drop first).takeWhile (· ≠ ']')
      match (body.drop first).dropWhile (· ≠ ']') with
      | [] => .lit '[' :: globItems n rest
      | _ :: after => .set negated (globRanges members) :: globItems n after
  | n + 1, c :: rest => .lit c :: globItems n rest

def GlobItem.accepts (c : Char) : GlobItem → Bool
  | .star | .any => true
  | .set negated ranges => ranges.any (fun r => r.1 ≤ c && c ≤ r.2) != negated
  | .lit d => c = d

def globMatches : List GlobItem → List Char → Bool
  | [] => List.isEmpty
  | .star :: items => fun cs => cs.tails.any (globMatches items)
  | item :: items => fun
      | [] => false
      | c :: cs => item.accepts c && globMatches items cs

def fnmatchcase (name pattern : String) : Bool :=
  globMatches (globItems pattern.length pattern.toList) name.toList

example : fnmatchcase "OPS/a-b.md" "OPS/[a-c]*[!x].m?" = true := by decide +kernel

inductive SuppressionScope
  | fingerprint
  | rule
  | pathGlob
  deriving DecidableEq, Repr

/-- The entries of a locator that are strings. -/
abbrev Locator := List (String × String)

def locatorPathKeys : List String :=
  ["path", "url", "space", "space_key", "resource_id", "sub_resource", "title"]

def locatorPaths (locator : Locator) : List String :=
  locatorPathKeys.filterMap fun key => List.lookup key locator

structure SuppressionRule where
  id : ℕ
  scope : SuppressionScope
  pattern : String
  deriving DecidableEq, Repr

/-- What a rule looks at in a detection or in a stored finding. -/
structure Sighting where
  fingerprint : String
  ruleId : String
  resourceLocator : Locator
  deriving DecidableEq, Repr

def SuppressionRule.matches (rule : SuppressionRule) (s : Sighting) : Bool :=
  match rule.scope with
  | .fingerprint => rule.pattern = s.fingerprint
  | .rule => rule.pattern = s.ruleId
  | .pathGlob => (locatorPaths s.resourceLocator).any fun path => fnmatchcase path rule.pattern

def firstMatch (rules : List SuppressionRule) (s : Sighting) : Option SuppressionRule :=
  rules.find? fun rule => rule.matches s

/-- A stored suppression; without a source it is global, without an expiry permanent. -/
structure Suppression extends SuppressionRule where
  sourceId : Option ℕ := none
  expiresAt : Option ℕ := none
  deriving DecidableEq, Repr

def Suppression.Expired (s : Suppression) (now : ℕ) : Bool := s.expiresAt.any (· ≤ now)

def Suppression.Concerns (s : Suppression) (sourceId : ℕ) : Bool := s.sourceId.all (· = sourceId)

/-- Every live suppression for this source, the global ones included. -/
def applicableSuppressions (rows : List Suppression) (sourceId now : ℕ) : List SuppressionRule :=
  (rows.filter fun s => s.Concerns sourceId && !s.Expired now).map (·.toSuppressionRule)

end IcebergSST
