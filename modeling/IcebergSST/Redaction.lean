import IcebergSST.Library.Literal
import IcebergSST.Library.Settle
import IcebergSST.Text

/-!
# Turning a match into a snippet that is safe to store

A snippet is bounded context around a masked match. The window is clipped where its edges
cut through a copy of a matched text, every match reaching the window is masked, and so is
the half of a copy that a mask's own edge would expose; literal copies in what is left are
scrubbed, longest first, and runs of whitespace collapse to one space.
-/

namespace IcebergSST.Redaction

abbrev Text := List Char

def maxSnippetChars : ℕ := 300

def ellipsis : Char := '…'

structure RedactionError where
  message : String
  deriving DecidableEq, Repr

inductive RedactionStrategy
  | full
  | keepPrefix
  | keepSuffix
  deriving DecidableEq, Repr

/-- A half-open range of a unit of `n` characters. -/
@[ext] structure Span (n : ℕ) where
  start : ℕ
  stop : ℕ
  start_lt : start < stop
  stop_le : stop ≤ n
  deriving DecidableEq, Repr

variable {n : ℕ}

def Span.Overlaps (a b : Span n) : Prop := a.start < b.stop ∧ b.start < a.stop

instance (a b : Span n) : Decidable (a.Overlaps b) := inferInstanceAs (Decidable (_ ∧ _))

/-- A text that is not empty: what a span covers. -/
abbrev Plaintext := {t : Text // t ≠ []}

/-- A matched text that is looked for: one character would be found in any context. -/
abbrev Secret := {t : Text // 1 < t.length}

theorem Span.slice_ne_nil (text : Text) (span : Span text.length) :
    Literal.slice text span.start span.stop ≠ [] := by
  have hlt := span.start_lt
  rw [← List.length_pos_iff, Literal.length_slice span.stop_le]
  omega

def plaintext (text : Text) (span : Span text.length) : Plaintext :=
  ⟨Literal.slice text span.start span.stop, span.slice_ne_nil text⟩

structure RedactionPolicy where
  strategy : RedactionStrategy := .full
  keep : ℤ := 4
  contextChars : ℕ := 48
  minLengthToReveal : ℕ := 16
  deriving DecidableEq, Repr

def revealableLength (secretLength : ℕ) (policy : RedactionPolicy) : ℕ :=
  if policy.strategy = .full then 0
  else if secretLength < policy.minLengthToReveal then 0
  else (max 0 (min policy.keep (secretLength / 3 : ℕ))).toNat

def marker (hidden : ℕ) : Text := '[' :: (Nat.toDigits 10 hidden ++ " chars redacted]".toList)

def maskSecret (secret : Plaintext) (policy : RedactionPolicy) : Text :=
  let revealed := revealableLength secret.1.length policy
  let mark := marker (secret.1.length - revealed)
  if revealed = 0 then mark
  else if policy.strategy = .keepSuffix then
    mark ++ ellipsis :: secret.1.drop (secret.1.length - revealed)
  else secret.1.take revealed ++ ellipsis :: mark

structure Window (target : Span n) extends Span n where
  start_le_target : start ≤ target.start
  target_le_stop : target.stop ≤ stop

def contextWindow (target : Span n) (policy : RedactionPolicy) : Window target where
  start := target.start - policy.contextChars
  stop := min n (target.stop + policy.contextChars)
  start_lt := by
    have := target.start_lt
    have := target.stop_le
    omega
  stop_le := Nat.min_le_left _ _
  start_le_target := Nat.sub_le _ _
  target_le_stop := le_min target.stop_le (Nat.le_add_right _ _)

/-- The order in which a set of texts is walked: the hash seed decides it. -/
structure WalkOrder where
  walk : List Secret → List Secret
  perm : ∀ l, (walk l).Perm l

def WalkOrder.listed : WalkOrder := ⟨id, fun _ => List.Perm.refl _⟩

/-- The distinct plaintext of every match, single characters excluded. -/
def matchedTexts (text : Text) (target : Span text.length) (otherSpans : List (Span text.length)) :
    List Secret :=
  ((target :: otherSpans).filterMap fun span =>
    if h : 1 < (plaintext text span).1.length then some ⟨(plaintext text span).1, h⟩
    else none).dedup

/-- The leftmost copy that holds `boundary` strictly inside it. -/
def straddler (text : Text) (boundary : ℕ) (secret : Secret) : Option (ℕ × ℕ) :=
  (Literal.find text secret.1 (boundary + 1 - secret.1.length)
    (boundary + secret.1.length - 1)).map fun index => (index, index + secret.1.length)

/-- One pass over the secrets: an edge that cuts a copy is pulled past it. -/
def edgePass (text : Text) (secrets : List Secret) (pull : ℕ × ℕ → ℕ) (edge : ℕ) : ℕ × Bool :=
  secrets.foldl (fun (edge, moved) secret =>
    match straddler text edge secret with
    | some hit => (pull hit, true)
    | none => (edge, moved)) (edge, false)

/-- `room` is how far the edge still is from the target. -/
def edgeRound (text : Text) (secrets : List Secret) (pull : ℕ × ℕ → ℕ) (room : ℕ → ℕ) (edge : ℕ) :
    Option ℕ :=
  if 0 < room edge ∧ (edgePass text secrets pull edge).2 then
    some (edgePass text secrets pull edge).1
  else none

/-- Every pass that moves the edge takes room away, so the bound is never reached. -/
def clipEdge (text : Text) (secrets : List Secret) (pull : ℕ × ℕ → ℕ) (room : ℕ → ℕ) (edge : ℕ) :
    ℕ :=
  (Settle.settle? (edgeRound text secrets pull room) (room edge + 1) edge).getD edge

def clipStop (text : Text) (target : Span text.length) (secrets : List Secret) (stop : ℕ) : ℕ :=
  clipEdge text secrets (fun hit => max hit.1 target.stop) (· - target.stop) stop

def clipStart (text : Text) (target : Span text.length) (secrets : List Secret) (start : ℕ) : ℕ :=
  clipEdge text secrets (fun hit => min hit.2 target.start) (target.start - ·) start

def Straddles (text : Text) (secret : Secret) (edge : ℕ) : Prop :=
  ∃ i, Literal.At text secret.1 i ∧ i < edge ∧ edge < i + secret.1.length

theorem straddler_spec {text : Text} {edge : ℕ} {secret : Secret} {hit : ℕ × ℕ}
    (h : straddler text edge secret = some hit) :
    Literal.At text secret.1 hit.1 ∧ hit.1 < edge ∧ edge < hit.2 := by
  obtain ⟨i, hfind, rfl⟩ := Option.map_eq_some_iff.1 h
  obtain ⟨hstart, hstop, hat⟩ := Literal.mem_occurrences.1 (Literal.find_mem hfind)
  have := secret.2
  refine ⟨hat, ?_, ?_⟩
  · change i < edge
    omega
  · change edge < i + secret.1.length
    omega

theorem straddler_eq_none {text : Text} {edge : ℕ} {secret : Secret} :
    straddler text edge secret = none ↔ ¬ Straddles text secret edge := by
  rw [straddler, Option.map_eq_none_iff, Literal.find_eq_none]
  have := secret.2
  constructor
  · rintro h ⟨i, hat, hlt, hgt⟩
    exact h i (by omega) (by omega) hat
  · intro h i hstart hstop hat
    exact h ⟨i, hat, by omega, by omega⟩

section Clip

variable {text : Text} {secrets : List Secret} {pull : ℕ × ℕ → ℕ} {room : ℕ → ℕ} {P : ℕ → Prop}
  (hpull : ∀ edge hit, P edge → hit.1 < edge → edge < hit.2 →
    P (pull hit) ∧ room (pull hit) ≤ room edge ∧ (0 < room edge → room (pull hit) < room edge))
include hpull

theorem edgePass_spec {edge : ℕ} (hP : P edge) :
    P (edgePass text secrets pull edge).1 ∧
    ((edgePass text secrets pull edge).2 = true → 0 < room edge →
      room (edgePass text secrets pull edge).1 < room edge) ∧
    ((edgePass text secrets pull edge).2 = false →
      ∀ secret ∈ secrets, ¬ Straddles text secret edge) := by
  -- the pass may begin with the edge already moved
  have hfold : ∀ (l : List Secret) (e : ℕ) (m : Bool), P e →
      let r := l.foldl (fun (edge, moved) secret =>
        match straddler text edge secret with
        | some hit => (pull hit, true)
        | none => (edge, moved)) (e, m)
      P r.1 ∧ room r.1 ≤ room e ∧
        (r.2 = true → m = false → 0 < room e → room r.1 < room e) ∧
        (r.2 = false → m = false ∧ ∀ secret ∈ l, ¬ Straddles text secret e) := by
    intro l
    induction l with
    | nil =>
        intro e m he
        refine ⟨he, le_rfl, fun h h' => ?_, fun h => ⟨h, fun _ hm => absurd hm List.not_mem_nil⟩⟩
        rw [show m = true from h] at h'
        cases h'
    | cons secret l ih =>
        intro e m he
        cases hs : straddler text e secret with
        | some hit =>
            obtain ⟨_, hlt, hgt⟩ := straddler_spec hs
            obtain ⟨hP', hle, hdrop⟩ := hpull e hit he hlt hgt
            obtain ⟨hr, hrle, _, hfalse⟩ := ih (pull hit) true hP'
            simp only [List.foldl_cons, hs]
            refine ⟨hr, hrle.trans hle, fun _ _ h0 => lt_of_le_of_lt hrle (hdrop h0), fun h => ?_⟩
            cases (hfalse h).1
        | none =>
            obtain ⟨hr, hrle, hmoved, hfalse⟩ := ih e m he
            simp only [List.foldl_cons, hs]
            refine ⟨hr, hrle, hmoved, fun h => ⟨(hfalse h).1, ?_⟩⟩
            intro secret' hmem
            rcases List.mem_cons.1 hmem with rfl | hmem
            · exact straddler_eq_none.1 hs
            · exact (hfalse h).2 secret' hmem
  obtain ⟨hr, _, hmoved, hfalse⟩ := hfold secrets edge false hP
  exact ⟨hr, fun h => hmoved h rfl, fun h => (hfalse h).2⟩

/-- The loop ends, and then the edge stands at the target or cuts no copy. -/
theorem clipEdge_spec {edge : ℕ} (hP : P edge) :
    P (clipEdge text secrets pull room edge) ∧
    (0 < room (clipEdge text secrets pull room edge) →
      ∀ secret ∈ secrets, ¬ Straddles text secret (clipEdge text secrets pull room edge)) := by
  have hround : ∀ e e', P e → edgeRound text secrets pull room e = some e' →
      P e' ∧ room e' < room e := by
    intro e e' he h
    rw [edgeRound] at h
    split_ifs at h with hc
    obtain rfl := Option.some.inj h
    exact ⟨(edgePass_spec hpull he).1, (edgePass_spec hpull he).2.1 hc.2 hc.1⟩
  obtain ⟨e, he⟩ := Option.isSome_iff_exists.1
    (Settle.settle?_isSome hround hP (Nat.lt_succ_self (room edge)))
  have hclip : clipEdge text secrets pull room edge = e := by
    rw [clipEdge, he]
    rfl
  obtain ⟨hPe, hend⟩ := Settle.settle?_spec (fun x y hx hy => (hround x y hx hy).1) he hP
  rw [hclip]
  refine ⟨hPe, fun hroom => (edgePass_spec hpull hPe).2.2 ?_⟩
  rw [edgeRound] at hend
  split_ifs at hend with hc
  cases hmoved : (edgePass text secrets pull e).2 with
  | false => rfl
  | true => exact absurd ⟨hroom, hmoved⟩ hc

end Clip

theorem clipStop_spec (text : Text) (target : Span text.length) (secrets : List Secret)
    {stop : ℕ} (h : target.stop ≤ stop) :
    (target.stop ≤ clipStop text target secrets stop ∧
      clipStop text target secrets stop ≤ stop) ∧
    (target.stop < clipStop text target secrets stop →
      ∀ secret ∈ secrets, ¬ Straddles text secret (clipStop text target secrets stop)) := by
  have hspec := @clipEdge_spec text secrets (fun hit => max hit.1 target.stop) (· - target.stop)
    (fun e => target.stop ≤ e ∧ e ≤ stop) (fun e hit he hlt _ => by omega) stop ⟨h, le_rfl⟩
  exact ⟨hspec.1, fun hlt => hspec.2 (Nat.sub_pos_of_lt hlt)⟩

theorem clipStart_spec (text : Text) (target : Span text.length) (secrets : List Secret)
    {start : ℕ} (h : start ≤ target.start) :
    (start ≤ clipStart text target secrets start ∧
      clipStart text target secrets start ≤ target.start) ∧
    (clipStart text target secrets start < target.start →
      ∀ secret ∈ secrets, ¬ Straddles text secret (clipStart text target secrets start)) := by
  have hspec := @clipEdge_spec text secrets (fun hit => min hit.2 target.start) (target.start - ·)
    (fun e => start ≤ e ∧ e ≤ target.start) (fun e hit he _ hgt => by omega) start ⟨le_rfl, h⟩
  exact ⟨hspec.1, fun hlt => hspec.2 (Nat.sub_pos_of_lt hlt)⟩

def clipToSecretBoundaries (text : Text) {target : Span text.length} (window : Window target)
    (secrets : List Secret) : Window target :=
  if secrets = [] then window
  else
    have hstop := (clipStop_spec text target secrets window.target_le_stop).1
    have hstart := (clipStart_spec text target secrets window.start_le_target).1
    { start := clipStart text target secrets window.start
      stop := clipStop text target secrets window.stop
      start_lt := by
        have := target.start_lt
        omega
      stop_le := hstop.2.trans window.stop_le
      start_le_target := hstart.2
      target_le_stop := hstop.1 }

abbrev MaskPlan (n : ℕ) := List (Span n × Text)

/-- The neighbour itself, or what of it reaches beyond the target on either side. -/
def besideTarget (target span : Span n) : List (Span n) :=
  if span.Overlaps target then
    (if h : span.start < target.start then
      [⟨span.start, target.start, h, target.start_lt.le.trans target.stop_le⟩] else []) ++
    if h : target.stop < span.stop then [⟨target.stop, span.stop, h, span.stop_le⟩] else []
  else [span]

/-- Spans in order of their start, those that touch joined into one. -/
def mergeFrom (last : Span n) : List (Span n) → List (Span n)
  | [] => [last]
  | span :: spans =>
    if span.start ≤ last.stop then
      mergeFrom ⟨last.start, max last.stop span.stop,
        last.start_lt.trans_le (Nat.le_max_left _ _), max_le last.stop_le span.stop_le⟩ spans
    else last :: mergeFrom span spans

def merged (spans : List (Span n)) : List (Span n) :=
  match spans.insertionSort (fun a b => a.start ≤ b.start) with
  | [] => []
  | span :: spans => mergeFrom span spans

/-- Every copy that reaches into the region. -/
def occurrences (text : Text) (secret : Secret) (region : Span text.length) :
    List (Span text.length) :=
  (Literal.occurrences text secret.1 (region.start + 1 - secret.1.length)
    (min text.length (region.stop + secret.1.length - 1))).attach.map fun index =>
      have h := Literal.mem_occurrences.1 index.2
      ⟨index.1, index.1 + secret.1.length, by have := secret.2; omega,
        h.2.1.trans (Nat.min_le_left _ _)⟩

def gapUpTo (cursor limit : ℕ) (hlimit : limit ≤ n) : List (Span n) :=
  if h : cursor < limit then [⟨cursor, limit, h, hlimit⟩] else []

def gapsFrom (limit : ℕ) (hlimit : limit ≤ n) : ℕ → List (Span n) → List (Span n)
  | cursor, [] => gapUpTo cursor limit hlimit
  | cursor, span :: covered =>
    if span.stop ≤ cursor then gapsFrom limit hlimit cursor covered
    else if limit ≤ span.start then gapUpTo cursor limit hlimit
    else gapUpTo cursor span.start (span.start_lt.le.trans span.stop_le) ++
      if limit ≤ max cursor span.stop then []
      else gapsFrom limit hlimit (max cursor span.stop) covered

/-- The parts of the copy inside the window that no mask hides. -/
def uncovered (copy : Span n) (covered : List (Span n)) (window : Span n) : List (Span n) :=
  gapsFrom (min copy.stop window.stop) ((Nat.min_le_left _ _).trans copy.stop_le)
    (max copy.start window.start) covered

def partialCopies (text : Text) (plan : MaskPlan text.length) (window : Span text.length)
    (secrets : List Secret) : List (Span text.length) :=
  let covered := merged (plan.map Prod.fst)
  secrets.flatMap fun secret =>
    ((occurrences text secret window).filter fun copy =>
      covered.any fun span => copy.Overlaps span).flatMap fun copy =>
        uncovered copy covered window

def defaultMask (text : Text) (span : Span text.length) : Span text.length × Text :=
  (span, maskSecret (plaintext text span) {})

def coverRound (text : Text) (window : Span text.length) (secrets : List Secret)
    (plan : MaskPlan text.length) : Option (MaskPlan text.length) :=
  match partialCopies text plan window secrets with
  | [] => none
  | additions => some (plan ++ additions.map (defaultMask text))

def coverPartialCopies (text : Text) (plan : MaskPlan text.length) (window : Span text.length)
    (secrets : List Secret) : Except RedactionError (MaskPlan text.length) :=
  if secrets = [] then .ok plan
  else
    match Settle.settle? (coverRound text window secrets) (window.stop - window.start + 1) plan with
    | some plan => .ok plan
    | none => .error ⟨"redaction failed: could not mask every partial copy"⟩

def maskPlan (text : Text) {target : Span text.length} (otherSpans : List (Span text.length))
    (window : Window target) (policy : RedactionPolicy) (secrets : List Secret) :
    Except RedactionError (MaskPlan text.length) := do
  let neighbours := (otherSpans.filter fun span => span.Overlaps window.toSpan).flatMap
    (besideTarget target)
  let plan ← coverPartialCopies text
    ((target, maskSecret (plaintext text target) policy) :: neighbours.map (defaultMask text))
    window.toSpan secrets
  return plan.insertionSort fun a b => a.1.start ≤ b.1.start

inductive Part (n : ℕ)
  | context (span : Span n)
  | mask (text : Text)
  deriving DecidableEq, Repr

def layoutFrom (stop : ℕ) (hstop : stop ≤ n) : ℕ → MaskPlan n → List (Part n)
  | cursor, [] => (gapUpTo cursor stop hstop).map .context
  | cursor, (span, mask) :: plan =>
    (gapUpTo cursor span.start (span.start_lt.le.trans span.stop_le)).map .context ++
      .mask mask :: layoutFrom stop hstop (max cursor span.stop) plan

def layout (plan : MaskPlan n) (window : Span n) : List (Part n) :=
  layoutFrom window.stop window.stop_le window.start plan

abbrev Replacements := List (Text × Text)

/-- The first mask that is given to a text stays. -/
def Replacements.setDefault (replacements : Replacements) (secret mask : Text) : Replacements :=
  if replacements.any (·.1 = secret) then replacements else replacements ++ [(secret, mask)]

def replacements (text : Text) (plan : MaskPlan text.length)
    (otherSpans : List (Span text.length)) : Replacements :=
  let masked := (plan ++ otherSpans.map (defaultMask text)).foldl (fun (found : Replacements)
      item => found.setDefault (plaintext text item.1).1 item.2) []
  (masked.insertionSort fun a b => b.1.length ≤ a.1.length).filter fun item => 1 < item.1.length

/-- Runs of whitespace become one space; the flag says that a run is under way. -/
def collapseWhitespace : Bool → Text → Text
  | _, [] => []
  | inRun, c :: text =>
    if isSpace c then
      if inRun then collapseWhitespace true text else ' ' :: collapseWhitespace true text
    else c :: collapseWhitespace false text

def context (fragment : Text) (replacements : Replacements) : Text :=
  collapseWhitespace false (replacements.foldl (fun scrubbed item =>
    Literal.replace id item.1 item.2 scrubbed) fragment)

def maskedPieces (text : Text) (plan : MaskPlan text.length) (otherSpans : List (Span text.length))
    (window : Span text.length) : List Text :=
  (layout plan window).map fun
    | .context part => context (plaintext text part).1 (replacements text plan otherSpans)
    | .mask mask => mask

def assertNoPlaintext (snippet : Text) (secrets : List Secret) : Except RedactionError Unit :=
  if secrets.any fun secret => secret.1 <:+: snippet then
    .error ⟨"redaction failed: snippet still contains a matched secret"⟩
  else .ok ()

/-- Every edge of every emitted stretch is looked at, not just the two of the window. -/
def assertNoBisectedSecret (text : Text) (plan : MaskPlan text.length) (window : Span text.length)
    (secrets : List Secret) : Except RedactionError Unit :=
  if (layout plan window).any fun
    | .context part => [part.start, part.stop].any fun edge =>
        secrets.any fun secret => (straddler text edge secret).isSome
    | .mask _ => false
  then .error ⟨"redaction failed: an emitted edge cuts through a matched secret"⟩
  else .ok ()

/-- An edge of the window that hides text shows that there is more. -/
def withEllipses (n : ℕ) (window : Span n) (body : Text) : Text :=
  (if 0 < window.start then [ellipsis] else []) ++ body ++
    if window.stop < n then [ellipsis] else []

def redactSnippet (order : WalkOrder) (text : Text) (target : Span text.length)
    (policy : RedactionPolicy) (otherSpans : List (Span text.length)) :
    Except RedactionError Text := do
  let secrets := order.walk (matchedTexts text target otherSpans)
  let window := clipToSecretBoundaries text (contextWindow target policy) secrets
  let plan ← maskPlan text otherSpans window policy secrets
  let snippet := withEllipses text.length window.toSpan
    (maskedPieces text plan otherSpans window.toSpan).flatten
  assertNoPlaintext snippet secrets
  assertNoBisectedSecret text plan window.toSpan secrets
  return snippet.take maxSnippetChars

end IcebergSST.Redaction
