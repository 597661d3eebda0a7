import IcebergSST.Snippet

/-!
# Running a rule pack over a content unit

Every rule's matches are gated and scored, the strongest are kept where there are too many,
overlapping ones collapse to the strongest, and each survivor is redacted with every match
that reaches its window as a neighbour, gated or not. A survivor whose redaction fails is
dropped. The pattern of a rule is what `finditer` says of its secret group; scores, which the
source computes in floating point, are taken from any linear order.
-/

namespace IcebergSST.Detection

open Redaction

inductive Severity
  | low
  | medium
  | high
  | critical
  deriving DecidableEq, Repr

def severityRank : Severity → ℕ
  | .low => 0
  | .medium => 1
  | .high => 2
  | .critical => 3

/-- Where the secret group of a match stands; a group that took no part has no place. -/
abbrev GroupSpan (n : ℕ) := Option {place : ℕ × ℕ // place.1 ≤ place.2 ∧ place.2 ≤ n}

structure Rule (κ : Type) where
  id : String
  severity : Severity
  finditer : (text : Text) → List (GroupSpan text.length)
  entropyMin : Option κ := none
  keywords : List String := []
  keywordWindow : ℕ := 64
  requiresKeyword : Bool := false
  redaction : RedactionPolicy := {}
  baseConfidence : κ

abbrev RulePack (κ : Type) := List (Rule κ)

structure Signals (κ : Type) where
  entropy : κ
  keywordNearby : Bool
  keyword : Option String

/-- The three signals: what they say of a candidate is a matter of the rule and the text. -/
structure Scoring (κ : Type) where
  shannonEntropy : Text → κ
  keywordNear : Text → ℕ → ℕ → List String → ℕ → Option String
  confidence : κ → Signals κ → Option κ → Bool → κ

structure Candidate (κ : Type) (n : ℕ) where
  rule : Rule κ
  span : Span n
  text : Text
  signals : Signals κ
  score : κ

structure DetectedSecret (κ : Type) (n : ℕ) where
  ruleId : String
  severity : Severity
  span : Span n
  secret : Text
  redactedSnippet : Text
  entropy : κ
  confidence : κ
  keyword : Option String

structure DetectionResult (κ : Type) (n : ℕ) where
  secrets : List (DetectedSecret κ n) := []
  droppedBelowThreshold : ℕ := 0
  droppedNoKeyword : ℕ := 0
  droppedLowEntropy : ℕ := 0
  droppedOverlapping : ℕ := 0
  truncated : Bool := false

/-- An absent group and an empty one are no secret. -/
def secretSpan {n : ℕ} (group : GroupSpan n) : Option (Span n) :=
  group.bind fun place =>
    if h : place.1.1 < place.1.2 then some ⟨place.1.1, place.1.2, h, place.2.2⟩ else none

def ruleSpans {κ : Type} (rule : Rule κ) (text : Text) : List (Span text.length) :=
  (rule.finditer text).filterMap secretSpan

/-- Every rule's secret spans over the unit, gated or not, each once. -/
def matchSpans {κ : Type} (text : Text) (pack : RulePack κ) : List (Span text.length) :=
  (pack.flatMap fun rule => ruleSpans rule text).eraseDups

section

variable {κ : Type} [LinearOrder κ] {n : ℕ}

inductive Gated (κ : Type) (n : ℕ)
  | lowEntropy
  | noKeyword
  | passed (candidate : Candidate κ n)

def gate (scoring : Scoring κ) (text : Text) (rule : Rule κ) (span : Span text.length) :
    Gated κ text.length :=
  let candidateText := (plaintext text span).1
  let entropy := scoring.shannonEntropy candidateText
  if rule.entropyMin.any (entropy < ·) then .lowEntropy
  else
    let keyword :=
      scoring.keywordNear text span.start span.stop rule.keywords rule.keywordWindow
    if rule.requiresKeyword ∧ keyword = none then .noKeyword
    else
      let signals : Signals κ := ⟨entropy, keyword.isSome, keyword⟩
      .passed
        { rule := rule
          span := span
          text := candidateText
          signals := signals
          score := scoring.confidence rule.baseConfidence signals rule.entropyMin
            !rule.keywords.isEmpty }

def gatedMatches (scoring : Scoring κ) (text : Text) (pack : RulePack κ) :
    List (Gated κ text.length) :=
  pack.flatMap fun rule => (ruleSpans rule text).map (gate scoring text rule)

def Gated.candidate? : Gated κ n → Option (Candidate κ n)
  | .passed candidate => some candidate
  | .lowEntropy | .noKeyword => none

def candidates (scoring : Scoring κ) (text : Text) (pack : RulePack κ) :
    List (Candidate κ text.length) :=
  (gatedMatches scoring text pack).filterMap Gated.candidate?

def MoreSevere (a b : Candidate κ n) : Prop :=
  severityRank b.rule.severity < severityRank a.rule.severity ∨
    severityRank a.rule.severity = severityRank b.rule.severity ∧
      (b.score < a.score ∨ a.score = b.score ∧ a.span.start ≤ b.span.start)

instance (a b : Candidate κ n) : Decidable (MoreSevere a b) := inferInstanceAs (Decidable (_ ∨ _))

def inDocumentOrder (candidates : List (Candidate κ n)) : List (Candidate κ n) :=
  candidates.insertionSort fun a b => a.span.start ≤ b.span.start

def strongest (candidates : List (Candidate κ n)) (limit : ℕ) : List (Candidate κ n) :=
  inDocumentOrder ((candidates.insertionSort MoreSevere).take limit)

def MoreSpecific (a b : Candidate κ n) : Prop :=
  b.score < a.score ∨ a.score = b.score ∧
    (b.span.stop - b.span.start < a.span.stop - a.span.start ∨
      a.span.stop - a.span.start = b.span.stop - b.span.start ∧ a.span.start ≤ b.span.start)

instance (a b : Candidate κ n) : Decidable (MoreSpecific a b) := inferInstanceAs (Decidable (_ ∨ _))

def keepFirst (candidates : List (Candidate κ n)) : List (Candidate κ n) :=
  candidates.foldl (fun kept candidate =>
    if kept.any fun other => candidate.span.Overlaps other.span then kept
    else kept ++ [candidate]) []

def strongestOfEachOverlap (candidates : List (Candidate κ n)) : List (Candidate κ n) :=
  inDocumentOrder (keepFirst (candidates.insertionSort MoreSpecific))

/-- The first place in a sorted list where a number could be put, and the last. -/
def bisectLeft (starts : List ℕ) (x : ℕ) : ℕ := (starts.takeWhile (· < x)).length

def bisectRight (starts : List ℕ) (x : ℕ) : ℕ := (starts.takeWhile (· ≤ x)).length

def spansReaching (spans : List (Span n)) (starts : List ℕ) (widest : ℕ) (window : Span n) :
    List (Span n) :=
  let first := bisectLeft starts (window.start - widest)
  let last := bisectRight starts window.stop
  ((spans.take last).drop first).filter fun span => span.Overlaps window

def allSpans (text : Text) (pack : RulePack κ) : List (Span text.length) :=
  (matchSpans text pack).insertionSort fun a b => a.start ≤ b.start

/-- What is masked beside the candidate in its snippet. -/
def neighbours (text : Text) (pack : RulePack κ) (candidate : Candidate κ text.length) :
    List (Span text.length) :=
  let spans := allSpans text pack
  let widest := (spans.map fun span => span.stop - span.start).foldr max 0
  (spansReaching spans (spans.map Span.start) widest
    (contextWindow candidate.span candidate.rule.redaction).toSpan).filter (· ≠ candidate.span)

def redactCandidate (order : WalkOrder) (text : Text) (pack : RulePack κ)
    (candidate : Candidate κ text.length) : Except RedactionError Text :=
  redactSnippet order text candidate.span candidate.rule.redaction (neighbours text pack candidate)

def Candidate.detected (candidate : Candidate κ n) (snippet : Text) : DetectedSecret κ n where
  ruleId := candidate.rule.id
  severity := candidate.rule.severity
  span := candidate.span
  secret := candidate.text
  redactedSnippet := snippet
  entropy := candidate.signals.entropy
  confidence := candidate.score
  keyword := candidate.signals.keyword

variable (order : WalkOrder) (scoring : Scoring κ) (text : Text) (pack : RulePack κ)
  (threshold : κ) (maxMatches : ℕ)

def aboveThreshold : List (Candidate κ text.length) :=
  (candidates scoring text pack).filter fun candidate => threshold ≤ candidate.score

def capped : List (Candidate κ text.length) :=
  let above := aboveThreshold scoring text pack threshold
  if maxMatches < above.length then strongest above maxMatches else above

/-- What survives the gates, the cap and the collapse of overlaps. -/
def reportable : List (Candidate κ text.length) :=
  strongestOfEachOverlap (capped scoring text pack threshold maxMatches)

def detect : DetectionResult κ text.length :=
  let found := candidates scoring text pack
  let above := aboveThreshold scoring text pack threshold
  let kept := capped scoring text pack threshold maxMatches
  let reportable := reportable scoring text pack threshold maxMatches
  { secrets := reportable.filterMap fun candidate =>
      match redactCandidate order text pack candidate with
      | .ok snippet => some (candidate.detected snippet)
      | .error _ => none
    droppedBelowThreshold := found.length - above.length
    droppedNoKeyword := (gatedMatches scoring text pack).countP fun
      | .noKeyword => true
      | _ => false
    droppedLowEntropy := (gatedMatches scoring text pack).countP fun
      | .lowEntropy => true
      | _ => false
    droppedOverlapping := kept.length - reportable.length
    truncated := maxMatches < above.length }

end

end IcebergSST.Detection
