import IcebergSST.Detect
import IcebergSST.Library.UniqueColumn
import IcebergSST.Rotation

/-!
# Ingesting a batch through a live map

`ingest_findings` looks up the rows of a whole batch at once and keeps the map in step
with what it creates and re-keys. Nothing is asked of the database between two payloads,
so the session writes re-keyed fingerprints back only when a row is created and when the
transaction commits: all that changed since, in the order of the primary keys, before any
new row. New events go with them, and the database refuses a second system event of one kind
and scan. `ingestSingly` is the same loop with a lookup, and so a write-back, per payload.
-/

namespace IcebergSST

open Detection (Severity severityRank)

inductive ValidationStatus
  | live
  | revoked
  | unknown
  | blocked
  | error
  deriving DecidableEq, Repr

def ValidationStatus.value : ValidationStatus → String
  | .live => "live"
  | .revoked => "revoked"
  | .unknown => "unknown"
  | .blocked => "blocked"
  | .error => "error"

inductive ValidationReason
  | credentialAccepted
  | credentialRejected
  | providerRateLimited
  | providerUnavailable
  | inconclusiveResponse
  | timeout
  | protocolError
  | policyBudgetExhausted
  deriving DecidableEq, Repr

def ValidationReason.value : ValidationReason → String
  | .credentialAccepted => "credential_accepted"
  | .credentialRejected => "credential_rejected"
  | .providerRateLimited => "provider_rate_limited"
  | .providerUnavailable => "provider_unavailable"
  | .inconclusiveResponse => "inconclusive_response"
  | .timeout => "timeout"
  | .protocolError => "protocol_error"
  | .policyBudgetExhausted => "policy_budget_exhausted"

structure CredentialValidationResult where
  provider : String
  validatorId : String
  contractVersion : String
  status : ValidationStatus
  reason : ValidationReason
  deriving DecidableEq, Repr

structure ReportedFinding extends FindingPayload where
  rulepackVersion : String
  redactedSnippet : String
  entropy : Option ℚ := none
  severity : Severity
  validation : Option CredentialValidationResult := none

structure IngestedFinding extends TrackedFinding where
  firstSeenScanId : ℕ
  correlationId : Option String := none
  rulepackVersion : String
  redactedSnippet : String
  entropy : Option ℚ := none
  confidence : Option ℚ := none
  severity : Severity
  /-- The five columns of the last validation, which are written together. -/
  validation : Option CredentialValidationResult := none
  validatedAt : Option ℕ := none
  dueAt : Option ℕ := none

structure RoutingRule where
  name : String
  ownerGroupId : ℕ
  sourceId : Option ℕ := none
  ruleId : Option String := none
  minSeverity : Option Severity := none
  /-- Case-folded, like the tags of the source. -/
  sourceTags : List String := []

structure NewId where
  next : List ℕ → ℕ
  fresh : ∀ ids, next ids ∉ ids

/-- What one submission is ingested under, read once before the loop. -/
structure IngestSettings where
  sourceId : ℕ
  scanId : ℕ
  now : ℕ
  rules : List SuppressionRule := []
  routing : List RoutingRule := []
  /-- Hours to respond, for the severities that have a target. -/
  targets : Severity → Option ℕ := fun _ => none
  tags : List String := []
  correlate : Option (String → String) := none
  newId : NewId

namespace IngestedFinding

def note (f : IngestedFinding) (events : List FindingEvent) : IngestedFinding :=
  { f with events := f.events ++ events }

def recordValidation (s : IngestSettings) (p : ReportedFinding)
    (fromStatus : Option ValidationStatus) (f : IngestedFinding) : IngestedFinding :=
  match p.validation with
  | none => f
  | some result =>
      { f with validation := some result, validatedAt := some s.now }.note
        [{ scanId := some s.scanId
           kind := .validation
           fromValue := fromStatus.map ValidationStatus.value
           toValue := some result.status.value
           comment := some (result.provider ++ ":" ++ result.validatorId ++ ":" ++
             result.contractVersion ++ ":" ++ result.reason.value) }]

def matchedBy (s : IngestSettings) (f : IngestedFinding) (rule : RoutingRule) : Bool :=
  rule.sourceId.all (· = s.sourceId) && rule.ruleId.all (· = f.ruleId) &&
    rule.minSeverity.all (fun least => severityRank least ≤ severityRank f.severity) &&
    rule.sourceTags.all (· ∈ s.tags)

def route (s : IngestSettings) (f : IngestedFinding) : IngestedFinding :=
  if f.ownerPinned ∨ f.ownerGroupId.isSome then f
  else
    match s.routing.find? fun rule => f.matchedBy s rule with
    | none => f
    | some rule =>
        { f with ownerGroupId := some rule.ownerGroupId }.note
          [{ scanId := some s.scanId
             kind := .owner
             toValue := some (toString rule.ownerGroupId)
             comment := some ("routed by rule " ++ rule.name) }]

def startClock (s : IngestSettings) (restart : Bool) (f : IngestedFinding) : IngestedFinding :=
  if f.dueAt.isSome ∧ ¬ restart then f
  else
    match s.targets f.severity with
    | none => f
    | some hours => { f with dueAt := some (s.now + hours * 3600) }

/-- `suppress`, or `release` when no rule covers the finding. -/
def applySuppression (s : IngestSettings) (rule : Option SuppressionRule) (f : IngestedFinding) :
    IngestedFinding :=
  { f with toFinding := applyRule f.toFinding rule s.now }.note
    (ruleEvents f.toFinding s.scanId rule)

/-- The old identity of the row gives way to the payload's. -/
def rekey (s : IngestSettings) (p : ReportedFinding) (f : IngestedFinding) : IngestedFinding :=
  { f with
    fingerprint := p.fingerprint
    secretHash := p.secretHash
    correlationId := s.correlate.map fun correlate => correlate p.secretHash }

/-- The last sighting, a correlation id that was missing, and what is displayed. -/
def redisplay (s : IngestSettings) (p : ReportedFinding) (f : IngestedFinding) : IngestedFinding :=
  { f with
    lastSeenScanId := s.scanId
    correlationId := f.correlationId <|> s.correlate.map fun correlate => correlate f.secretHash
    resourceLocator := p.resourceLocator
    redactedSnippet := p.redactedSnippet
    rulepackVersion := p.rulepackVersion
    entropy := p.entropy
    confidence := p.confidence
    severity := p.severity }

/-- A result that is the stored one again is not recorded. -/
def revalidate (s : IngestSettings) (p : ReportedFinding) (f : IngestedFinding) : IngestedFinding :=
  if p.validation = f.validation then f
  else f.recordValidation s p (f.validation.map (·.status))

def reopen (s : IngestSettings) (f : IngestedFinding) : IngestedFinding :=
  if f.state = .resolved then
    { f with state := .opened, resolution := none }.note [reopenedEvent s.scanId]
  else f

end IngestedFinding

def createRow (s : IngestSettings) (id : ℕ) (p : ReportedFinding) (rule : Option SuppressionRule) :
    IngestedFinding :=
  let f : IngestedFinding :=
    { id
      fingerprint := p.fingerprint
      secretHash := p.secretHash
      ruleId := p.ruleId
      resourceLocator := p.resourceLocator
      lastSeenScanId := s.scanId
      firstSeenScanId := s.scanId
      correlationId := s.correlate.map fun correlate => correlate p.secretHash
      rulepackVersion := p.rulepackVersion
      redactedSnippet := p.redactedSnippet
      entropy := p.entropy
      confidence := p.confidence
      severity := p.severity }
  (((f.recordValidation s p none).route s).startClock s false).applySuppression s rule

def refreshRow (s : IngestSettings) (p : ReportedFinding) (rule : Option SuppressionRule)
    (f : IngestedFinding) : IngestedFinding :=
  let reopened := f.state = .resolved
  (((((f.redisplay s p).revalidate s p).reopen s).route s).startClock s reopened).applySuppression
    s rule

structure Ingested.Outcome where
  ingested : ℕ := 0
  suppressed : ℕ := 0
  reopened : ℕ := 0
  belowThreshold : ℕ := 0
  rekeyed : ℕ := 0
  fingerprints : List String := []
  deriving DecidableEq, Repr

/-- The findings of the source as the session holds them, and what is counted. -/
structure Ingested where
  rows : List IngestedFinding
  outcome : Ingested.Outcome := {}

def Ingested.find (w : Ingested) (fingerprint : String) : Option IngestedFinding :=
  w.rows.find? fun f => f.fingerprint = fingerprint

def Ingested.keys (w : Ingested) : UniqueColumn.Table ℕ String :=
  w.rows.map fun f => (f.id, f.fingerprint)

def Ingested.newId (s : IngestSettings) (w : Ingested) : ℕ := s.newId.next (w.rows.map (·.id))

/-- `uq_finding_event_system_per_scan` -/
def Ingested.EventsUnique (w : Ingested) : Prop := ∀ f ∈ w.rows, (systemKeys f.events).Nodup

instance (w : Ingested) : Decidable w.EventsUnique :=
  inferInstanceAs (Decidable (∀ f ∈ w.rows, _))

def resolveExisting (lookup : String → Option IngestedFinding) (p : ReportedFinding) :
    Option (IngestedFinding × Bool) :=
  match lookup p.fingerprint with
  | some f => some (f, false)
  | none =>
      (p.previousFingerprint.bind fun previous =>
        (lookup previous).filter fun f => sameSecret f.toFinding p.toFindingPayload).map (·, true)

/-- The body of the loop, once the existing row is resolved. -/
def Ingested.sight (s : IngestSettings) (p : ReportedFinding)
    (existing : Option (IngestedFinding × Bool)) (w : Ingested) : Ingested where
  rows :=
    let rule := firstMatch s.rules p.sighting
    match existing with
    | none => w.rows ++ [createRow s (w.newId s) p rule]
    | some (f, rekeyed) =>
        w.rows.map fun g =>
          if g.id = f.id then refreshRow s p rule (if rekeyed then g.rekey s p else g) else g
  outcome :=
    { w.outcome with
      ingested := w.outcome.ingested + 1
      suppressed := w.outcome.suppressed + (firstMatch s.rules p.sighting).isSome.toNat
      reopened := w.outcome.reopened + (existing.any fun e => e.1.state = .resolved).toNat
      rekeyed := w.outcome.rekeyed + (existing.any (·.2)).toNat
      fingerprints := w.outcome.fingerprints ++ [p.fingerprint] }

/-- With the identities that the database holds. -/
structure IngestSession extends Ingested where
  table : UniqueColumn.Table ℕ String

namespace IngestSession

/-- A `flush`: the changed fingerprints and the new events; `none` is an `IntegrityError`. -/
def writeBack (w : IngestSession) : Option IngestSession :=
  if w.EventsUnique then (UniqueColumn.flush w.table w.keys).map fun table => { w with table }
  else none

/-- A `select` of one fingerprint, answered with the row the session holds for it. -/
def select (w : IngestSession) (fingerprint : String) : Option IngestedFinding :=
  (w.table.find? fun r => r.2 = fingerprint).bind fun r => w.rows.find? fun f => f.id = r.1

/-- A new row is flushed on the spot, after whatever was changed before it. -/
def store (s : IngestSettings) (p : ReportedFinding) (existing : Option (IngestedFinding × Bool))
    (w : IngestSession) : Option IngestSession :=
  match existing with
  | some e => some { w with toIngested := w.sight s p (some e) }
  | none => do
      let w ← w.writeBack
      if ∃ r ∈ w.table, r.2 = p.fingerprint then none
      else
        some
          { toIngested := w.sight s p none
            table := w.table ++ [(w.newId s, p.fingerprint)] }

end IngestSession

def scoredOf (threshold : ℚ) (payloads : List ReportedFinding) : List ReportedFinding :=
  payloads.filter fun p => p.Scored threshold

def IngestSession.begin (rows : List IngestedFinding) (threshold : ℚ)
    (payloads : List ReportedFinding) : IngestSession where
  rows := rows
  outcome := { belowThreshold := payloads.length - (scoredOf threshold payloads).length }
  table := rows.map fun f => (f.id, f.fingerprint)

/-- The lookups of a payload write back what changed before they are answered. -/
def IngestSession.singly (s : IngestSettings) (w : IngestSession) (p : ReportedFinding) :
    Option IngestSession := do
  let w ← w.writeBack
  w.store s p (resolveExisting w.select p)

def ingestSingly (s : IngestSettings) (threshold : ℚ) (rows : List IngestedFinding)
    (payloads : List ReportedFinding) : Option IngestSession :=
  ((scoredOf threshold payloads).foldlM (IngestSession.singly s)
    (.begin rows threshold payloads)).bind (·.writeBack)

def wantedOf (payloads : List ReportedFinding) : List String :=
  (payloads.map (·.fingerprint) ++ payloads.filterMap (·.previousFingerprint)).dedup.mergeSort
    fun a b => a ≤ b

def lookupChunk : ℕ := 500

def chunksOf (ordered : List String) : List (List String) :=
  (List.range ((ordered.length + lookupChunk - 1) / lookupChunk)).map fun i =>
    (ordered.drop (i * lookupChunk)).take lookupChunk

/-- `_load_findings`: the rows of the batch by fingerprint, asked for chunk by chunk. -/
def loadFindings (table : UniqueColumn.Table ℕ String) (payloads : List ReportedFinding) :
    String → Option ℕ :=
  ((chunksOf (wantedOf payloads)).flatMap fun chunk => table.filter fun r => r.2 ∈ chunk).foldl
    (fun known r => Function.update known r.2 (some r.1)) fun _ => none

structure BatchSession extends IngestSession where
  known : String → Option ℕ

namespace BatchSession

def get (w : BatchSession) (fingerprint : String) : Option IngestedFinding :=
  (w.known fingerprint).bind fun id => w.rows.find? fun f => f.id = id

/-- The map kept in step with the row that was created or re-keyed. -/
def register (s : IngestSettings) (w : BatchSession) (p : ReportedFinding)
    (existing : Option (IngestedFinding × Bool)) : String → Option ℕ :=
  match existing with
  | none => Function.update w.known p.fingerprint (some (w.newId s))
  | some (f, true) =>
      Function.update
        (p.previousFingerprint.elim w.known fun previous => Function.update w.known previous none)
        p.fingerprint (some f.id)
  | some (_, false) => w.known

def step (s : IngestSettings) (w : BatchSession) (p : ReportedFinding) : Option BatchSession :=
  let existing := resolveExisting w.get p
  (w.store s p existing).map fun stored =>
    { toIngestSession := stored, known := w.register s p existing }

end BatchSession

/-- `ingest_findings`, with the commit of its transaction. -/
def ingestBatch (s : IngestSettings) (threshold : ℚ) (rows : List IngestedFinding)
    (payloads : List ReportedFinding) : Option IngestSession :=
  let start := IngestSession.begin rows threshold payloads
  ((scoredOf threshold payloads).foldlM (BatchSession.step s)
    { toIngestSession := start
      known := loadFindings start.table (scoredOf threshold payloads) }).bind
    fun w => w.writeBack

/-- No write-back of a batch has a row take an identity that the database still holds for a row
with a greater primary key. -/
def IngestSession.FlushesClear (s : IngestSettings) (w : IngestSession) :
    List ReportedFinding → Prop
  | [] => UniqueColumn.Clear w.table w.keys
  | p :: payloads =>
      match resolveExisting w.find p with
      | none =>
          UniqueColumn.Clear w.table w.keys ∧
            FlushesClear s
              { toIngested := w.sight s p none, table := (w.sight s p none).keys } payloads
      | some e => FlushesClear s { w with toIngested := w.sight s p (some e) } payloads

instance IngestSession.decidableFlushesClear (s : IngestSettings) (w : IngestSession) :
    (payloads : List ReportedFinding) → Decidable (w.FlushesClear s payloads)
  | [] => inferInstanceAs (Decidable (UniqueColumn.Clear w.table w.keys))
  | p :: payloads =>
      match h : resolveExisting w.find p with
      | none =>
          let stored : IngestSession :=
            { toIngested := w.sight s p none, table := (w.sight s p none).keys }
          have := decidableFlushesClear s stored payloads
          decidable_of_iff (UniqueColumn.Clear w.table w.keys ∧ stored.FlushesClear s payloads)
            (by simp only [FlushesClear, h, stored])
      | some e =>
          let stored : IngestSession := { w with toIngested := w.sight s p (some e) }
          have := decidableFlushesClear s stored payloads
          decidable_of_iff (stored.FlushesClear s payloads) (by simp only [FlushesClear, h, stored])

/-- No payload re-opens a row that the scan has re-opened before. -/
def Ingested.ReopensOnce (s : IngestSettings) (w : Ingested) : List ReportedFinding → Prop
  | [] => True
  | p :: payloads =>
      (∀ e ∈ resolveExisting w.find p, e.1.state = .resolved →
        (.reopened, s.scanId) ∉ systemKeys e.1.events) ∧
      ReopensOnce s (w.sight s p (resolveExisting w.find p)) payloads

instance Ingested.decidableReopensOnce (s : IngestSettings) (w : Ingested) :
    (payloads : List ReportedFinding) → Decidable (w.ReopensOnce s payloads)
  | [] => .isTrue trivial
  | p :: payloads =>
      have := decidableReopensOnce s (w.sight s p (resolveExisting w.find p)) payloads
      inferInstanceAs (Decidable ((∀ e ∈ resolveExisting w.find p, _) ∧ _))

namespace IngestedFinding
variable {s : IngestSettings} {p : ReportedFinding} {f : IngestedFinding}

@[simp] theorem note_toFinding (events : List FindingEvent) :
    (f.note events).toFinding = f.toFinding := rfl

@[simp] theorem recordValidation_toFinding (fromStatus : Option ValidationStatus) :
    (f.recordValidation s p fromStatus).toFinding = f.toFinding := by
  unfold recordValidation
  cases p.validation <;> rfl

@[simp] theorem revalidate_toFinding : (f.revalidate s p).toFinding = f.toFinding := by
  unfold revalidate
  split_ifs <;> simp

@[simp] theorem route_toFinding : (f.route s).toFinding = f.toFinding := by
  unfold route
  split_ifs
  · rfl
  · split <;> rfl

@[simp] theorem startClock_toFinding (restart : Bool) :
    (f.startClock s restart).toFinding = f.toFinding := by
  unfold startClock
  split_ifs
  · rfl
  · split <;> rfl

@[simp] theorem applySuppression_toFinding (rule : Option SuppressionRule) :
    (f.applySuppression s rule).toFinding = applyRule f.toFinding rule s.now := rfl

theorem rekey_toFinding (h : f.fingerprint ≠ p.fingerprint) :
    (f.rekey s p).toFinding = rekeyed f.toFinding p.toFindingPayload := by
  rw [rekeyed, if_neg h]
  rfl

theorem reopen_toFinding :
    (f.reopen s).toFinding =
      { f.toFinding with
        state := if f.state = .resolved then .opened else f.state
        resolution := if f.state = .resolved then none else f.resolution } := by
  unfold reopen
  split_ifs <;> rfl

end IngestedFinding

section Rows
variable {s : IngestSettings} {p : ReportedFinding} {rule : Option SuppressionRule}
  {f : IngestedFinding} {id : ℕ}

/-- Of what the earlier model of a finding keeps, `_refresh` is the refresh of that model. -/
theorem refreshRow_toFinding : (refreshRow s p rule f).toFinding =
    refresh f.toFinding s.scanId p.toFindingPayload rule s.now := by
  have hkept : ((f.redisplay s p).revalidate s p).toFinding = (f.redisplay s p).toFinding :=
    IngestedFinding.revalidate_toFinding
  simp only [refreshRow, IngestedFinding.applySuppression_toFinding,
    IngestedFinding.startClock_toFinding, IngestedFinding.route_toFinding,
    IngestedFinding.reopen_toFinding, hkept]
  rfl

theorem createRow_toFinding : (createRow s id p rule).toFinding =
    applyRule
      { id
        fingerprint := p.fingerprint
        secretHash := p.secretHash
        ruleId := p.ruleId
        resourceLocator := p.resourceLocator
        lastSeenScanId := s.scanId } rule s.now := by
  simp [createRow]

@[simp] theorem refreshRow_id : (refreshRow s p rule f).id = f.id := by
  rw [refreshRow_toFinding]
  exact (applyRule_keys _ rule s.now).1

@[simp] theorem refreshRow_fingerprint : (refreshRow s p rule f).fingerprint = f.fingerprint := by
  rw [refreshRow_toFinding]
  exact (applyRule_keys _ rule s.now).2.1

@[simp] theorem refreshRow_lastSeenScanId : (refreshRow s p rule f).lastSeenScanId = s.scanId := by
  rw [refreshRow_toFinding]
  exact (applyRule_keys _ rule s.now).2.2

@[simp] theorem refreshRow_secretHash : (refreshRow s p rule f).secretHash = f.secretHash := by
  rw [refreshRow_toFinding]
  exact applyRule_secretHash _ rule s.now

theorem refreshRow_state : (refreshRow s p rule f).state =
    if f.state = .resolved then .opened else f.state := by
  rw [refreshRow_toFinding, refresh_state]

@[simp] theorem createRow_id : (createRow s id p rule).id = id := by
  rw [createRow_toFinding]
  exact (applyRule_keys _ rule s.now).1

@[simp] theorem createRow_fingerprint : (createRow s id p rule).fingerprint = p.fingerprint := by
  rw [createRow_toFinding]
  exact (applyRule_keys _ rule s.now).2.1

@[simp] theorem createRow_lastSeenScanId : (createRow s id p rule).lastSeenScanId = s.scanId := by
  rw [createRow_toFinding]
  exact (applyRule_keys _ rule s.now).2.2

theorem createRow_state : (createRow s id p rule).state = .opened := by
  rw [createRow_toFinding, applyRule_state]

@[simp] theorem rekey_id : (f.rekey s p).id = f.id := rfl

@[simp] theorem rekey_fingerprint : (f.rekey s p).fingerprint = p.fingerprint := rfl

/-! The events that the index is about are those of a re-opening. -/

theorem systemKeys_recordValidation (fromStatus : Option ValidationStatus) :
    systemKeys (f.recordValidation s p fromStatus).events = systemKeys f.events := by
  unfold IngestedFinding.recordValidation
  cases p.validation with
  | none => rfl
  | some result =>
      simp only [IngestedFinding.note, systemKeys_append]
      exact List.append_nil _

theorem systemKeys_revalidate :
    systemKeys (f.revalidate s p).events = systemKeys f.events := by
  unfold IngestedFinding.revalidate
  split_ifs
  · rfl
  · exact systemKeys_recordValidation _

theorem systemKeys_route : systemKeys (f.route s).events = systemKeys f.events := by
  unfold IngestedFinding.route
  split_ifs
  · rfl
  · split
    · rfl
    · simp only [IngestedFinding.note, systemKeys_append]
      exact List.append_nil _

theorem systemKeys_startClock (restart : Bool) :
    systemKeys (f.startClock s restart).events = systemKeys f.events := by
  unfold IngestedFinding.startClock
  split_ifs
  · rfl
  · split <;> rfl

theorem systemKeys_applySuppression (rule : Option SuppressionRule) :
    systemKeys (f.applySuppression s rule).events = systemKeys f.events := by
  unfold IngestedFinding.applySuppression
  simp only [IngestedFinding.note, systemKeys_append, (ruleEvents_quiet _ _ _).2,
    List.append_nil]

theorem systemKeys_reopen : systemKeys (f.reopen s).events =
    systemKeys f.events ++ if f.state = .resolved then [(.reopened, s.scanId)] else [] := by
  unfold IngestedFinding.reopen
  split_ifs
  · simp only [IngestedFinding.note, systemKeys_append]
    rfl
  · exact (List.append_nil _).symm

theorem systemKeys_refreshRow : systemKeys (refreshRow s p rule f).events =
    systemKeys f.events ++ if f.state = .resolved then [(.reopened, s.scanId)] else [] := by
  have hstate : ((f.redisplay s p).revalidate s p).state = f.state :=
    (congrArg Finding.state (IngestedFinding.revalidate_toFinding (f := f.redisplay s p))).trans rfl
  simp only [refreshRow, systemKeys_applySuppression, systemKeys_startClock, systemKeys_route,
    systemKeys_reopen, systemKeys_revalidate, hstate]
  rfl

theorem systemKeys_createRow : systemKeys (createRow s id p rule).events = [] := by
  simp only [createRow, systemKeys_applySuppression, systemKeys_startClock, systemKeys_route,
    systemKeys_recordValidation]
  rfl

end Rows

end IcebergSST
