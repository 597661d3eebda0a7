import IcebergSST.Findings

/-!
# Triage and its audit trail

What an analyst's `PATCH` and a scan's sighting make of a finding, with the events each
writes. An analyst's change applies as a whole or not at all, and moves between states
only along the legal transitions; a sighting refutes a resolution and nothing else.

Events of validation, remediation and ownership routing are left out.
-/

namespace IcebergSST

def FindingState.value : FindingState → String
  | .opened => "open"
  | .falsePositive => "false_positive"
  | .acceptedRisk => "accepted_risk"
  | .resolved => "resolved"

theorem FindingState.value_injective : Function.Injective FindingState.value := by
  intro s t h
  cases s <;> cases t <;> first | rfl | simp [value] at h

def SuppressionScope.value : SuppressionScope → String
  | .pathGlob => "path_glob"
  | .fingerprint => "fingerprint"
  | .rule => "rule"

inductive FindingEventKind
  | stateChange
  | assign
  | comment
  | suppressed
  | reopened
  | validation
  | remediation
  | remediationVerified
  | remediationRetracted
  | owner
  deriving DecidableEq, Repr

/-- System events carry the scan that caused them, analysts' events the analyst. -/
structure FindingEvent where
  actorId : Option ℕ := none
  scanId : Option ℕ := none
  kind : FindingEventKind
  fromValue : Option String := none
  toValue : Option String := none
  comment : Option String := none
  deriving DecidableEq, Repr

structure FindingRecord extends Finding where
  assigneeId : Option ℕ := none
  ownerGroupId : Option ℕ := none
  ownerPinned : Bool := false
  notes : Option String := none
  deriving DecidableEq, Repr

/-- The body of `PATCH /findings/{id}`. A field that may be `null` is omitted as `none`
and cleared as `some none`. -/
structure FindingUpdate where
  state : Option FindingState := none
  assigneeId : Option (Option ℕ) := none
  ownerGroupId : Option (Option ℕ) := none
  notes : Option (Option String) := none
  comment : Option String := none

inductive TriageError
  | illegalTransition (source target : FindingState)
  | evidenceRequired
  deriving DecidableEq, Repr

abbrev Triaged := FindingRecord × List FindingEvent

def Triaged.andThen (t : Triaged) (next : FindingRecord → Triaged) : Triaged :=
  ((next t.1).1, t.2 ++ (next t.1).2)

/-- A move back to open is a reopen, whoever asks for it. -/
def transition (target : FindingState) (actorId : ℕ) (comment : Option String)
    (f : FindingRecord) : Triaged :=
  ({ f with
      state := target
      resolution := if target = .resolved then some .manual else none },
    [{ actorId := some actorId
       kind := if target = .opened then .reopened else .stateChange
       fromValue := some f.state.value
       toValue := some target.value
       comment }])

def assign (assigneeId : Option ℕ) (actorId : ℕ) (comment : Option String) (f : FindingRecord) :
    Triaged :=
  ({ f with assigneeId },
    [{ actorId := some actorId
       kind := .assign
       fromValue := f.assigneeId.map toString
       toValue := assigneeId.map toString
       comment }])

/-- Setting the accountable group pins it, also when it is the same group. -/
def own (ownerGroupId : Option ℕ) (actorId : ℕ) (comment : Option String) (f : FindingRecord) :
    Triaged :=
  if f.ownerGroupId = ownerGroupId ∧ f.ownerPinned then (f, [])
  else
    ({ f with ownerGroupId, ownerPinned := true },
      [{ actorId := some actorId
         kind := .owner
         fromValue := f.ownerGroupId.map toString
         toValue := ownerGroupId.map toString
         comment }])

def annotate (notes : Option String) (actorId : ℕ) (f : FindingRecord) : Triaged :=
  ({ f with notes }, [{ actorId := some actorId, kind := .comment, comment := notes }])

/-- The state a change asks for, when it is not the one the finding has. -/
def FindingUpdate.movingTo (changes : FindingUpdate) (f : FindingRecord) : Option FindingState :=
  changes.state.filter (· ≠ f.state)

/-! The steps of a change, each taken when the request names its field. -/

def FindingUpdate.restate (changes : FindingUpdate) (actorId : ℕ) (f : FindingRecord) : Triaged :=
  match changes.movingTo f with
  | none => (f, [])
  | some target => transition target actorId changes.comment f

def FindingUpdate.reassign (changes : FindingUpdate) (actorId : ℕ) (f : FindingRecord) : Triaged :=
  match changes.assigneeId with
  | none => (f, [])
  | some assigneeId =>
      if assigneeId = f.assigneeId then (f, []) else assign assigneeId actorId changes.comment f

def FindingUpdate.reown (changes : FindingUpdate) (actorId : ℕ) (f : FindingRecord) : Triaged :=
  match changes.ownerGroupId with
  | none => (f, [])
  | some ownerGroupId => own ownerGroupId actorId changes.comment f

def FindingUpdate.renote (changes : FindingUpdate) (actorId : ℕ) (f : FindingRecord) : Triaged :=
  match changes.notes with
  | none => (f, [])
  | some notes => if notes = f.notes then (f, []) else annotate notes actorId f

/-- `triage.apply`: validated before anything is changed. -/
def applyTriage (f : FindingRecord) (changes : FindingUpdate) (actorId : ℕ)
    (evidenceCheck : Option (FindingRecord → Bool)) : Except TriageError Triaged :=
  let moving := changes.movingTo f
  match moving.filter (· ∉ legalTransitions f.state) with
  | some target => .error (.illegalTransition f.state target)
  | none =>
      if moving = some .resolved ∧ evidenceCheck.any (fun check => !check f) then
        .error .evidenceRequired
      else
        .ok ((((changes.restate actorId f).andThen (changes.reassign actorId)).andThen
          (changes.reown actorId)).andThen (changes.renote actorId))

/-- The events of `suppress` and `release` for a sighting. -/
def ruleEvents (f : Finding) (scanId : ℕ) (rule : Option SuppressionRule) : List FindingEvent :=
  match rule with
  | some rule =>
      if f.suppressedAt.isSome then []
      else
        [{ kind := .suppressed
           toValue := some rule.scope.value
           comment := some s!"matched suppression {rule.id}" }]
  | none =>
      if f.suppressedAt.isSome then
        [{ kind := .comment, comment := some s!"no suppression matched in scan {scanId}" }]
      else []

def reopenedEvent (scanId : ℕ) : FindingEvent where
  scanId := some scanId
  kind := .reopened
  fromValue := some FindingState.resolved.value
  toValue := some FindingState.opened.value
  comment := some s!"seen again by scan {scanId}"

/-- `_refresh`, after the re-keying that a hit on the outgoing identity makes. -/
def sight (scanId now : ℕ) (f : FindingRecord) (p : FindingPayload)
    (rule : Option SuppressionRule) : Triaged :=
  ({ f with toFinding := refresh (rekeyed f.toFinding p) scanId p rule now },
    (if f.state = .resolved then [reopenedEvent scanId] else []) ++
      ruleEvents f.toFinding scanId rule)

def sightAll (scanId now : ℕ) (f : FindingRecord)
    (sightings : List (FindingPayload × Option SuppressionRule)) : Triaged :=
  sightings.foldl (fun t s => t.andThen fun f => sight scanId now f s.1 s.2) (f, [])

def autoResolvedEvent (scanId : ℕ) : FindingEvent where
  scanId := some scanId
  kind := .stateChange
  fromValue := some FindingState.opened.value
  toValue := some FindingState.resolved.value
  comment := some s!"not seen by scan {scanId}"

def FindingEvent.Moves (e : FindingEvent) : Bool := e.kind = .stateChange || e.kind = .reopened

def stateMoves (events : List FindingEvent) : List FindingEvent := events.filter (·.Moves)

def idempotentSystemEvents : List FindingEventKind := [.stateChange, .reopened]

/-- What the partial unique index sees of an event of one finding. -/
def FindingEvent.systemKey (e : FindingEvent) : Option (FindingEventKind × ℕ) :=
  if e.actorId = none ∧ e.kind ∈ idempotentSystemEvents then e.scanId.map (e.kind, ·) else none

def systemKeys (events : List FindingEvent) : List (FindingEventKind × ℕ) :=
  events.filterMap FindingEvent.systemKey

@[simp] theorem stateMoves_nil : stateMoves [] = [] := rfl

@[simp] theorem systemKeys_nil : systemKeys [] = [] := rfl

@[simp] theorem stateMoves_append (es es' : List FindingEvent) :
    stateMoves (es ++ es') = stateMoves es ++ stateMoves es' := List.filter_append ..

@[simp] theorem systemKeys_append (es es' : List FindingEvent) :
    systemKeys (es ++ es') = systemKeys es ++ systemKeys es' := List.filterMap_append

/-- A step that leaves the state alone and writes no event about it. -/
def Quiet (next : FindingRecord → Triaged) : Prop :=
  ∀ f, (next f).1.state = f.state ∧ stateMoves (next f).2 = [] ∧ systemKeys (next f).2 = []

theorem Quiet.andThen {next : FindingRecord → Triaged} (h : Quiet next) (t : Triaged) :
    (t.andThen next).1.state = t.1.state ∧ stateMoves (t.andThen next).2 = stateMoves t.2 ∧
      systemKeys (t.andThen next).2 = systemKeys t.2 := by
  obtain ⟨hstate, hmoves, hkeys⟩ := h t.1
  simp [Triaged.andThen, hstate, hmoves, hkeys]

theorem quiet_reassign (changes : FindingUpdate) (actorId : ℕ) :
    Quiet (changes.reassign actorId) := by
  intro f
  unfold FindingUpdate.reassign
  split
  · exact ⟨rfl, rfl, rfl⟩
  · split_ifs <;> exact ⟨rfl, rfl, rfl⟩

theorem quiet_reown (changes : FindingUpdate) (actorId : ℕ) : Quiet (changes.reown actorId) := by
  intro f
  unfold FindingUpdate.reown
  split
  · exact ⟨rfl, rfl, rfl⟩
  · unfold own
    split_ifs <;> exact ⟨rfl, rfl, rfl⟩

theorem quiet_renote (changes : FindingUpdate) (actorId : ℕ) : Quiet (changes.renote actorId) := by
  intro f
  unfold FindingUpdate.renote
  split
  · exact ⟨rfl, rfl, rfl⟩
  · split_ifs <;> exact ⟨rfl, rfl, rfl⟩

/-- An accepted change moves the state along one legal transition, with one event of the
analyst's, or not at all. -/
theorem applyTriage_ok {f : FindingRecord} {changes : FindingUpdate} {actorId : ℕ}
    {evidenceCheck : Option (FindingRecord → Bool)} {t : Triaged}
    (h : applyTriage f changes actorId evidenceCheck = .ok t) :
    systemKeys t.2 = [] ∧
      ((changes.movingTo f = none ∧ t.1.state = f.state ∧ stateMoves t.2 = []) ∨
        ∃ target, changes.movingTo f = some target ∧ target ∈ legalTransitions f.state ∧
          t.1.state = target ∧
          stateMoves t.2 = (transition target actorId changes.comment f).2) := by
  unfold applyTriage at h
  simp only at h
  split at h
  · cases h
  · rename_i hlegal
    split_ifs at h
    obtain rfl := Except.ok.inj h
    obtain ⟨hstate₁, hmoves₁, hkeys₁⟩ := (quiet_reassign changes actorId).andThen
      (changes.restate actorId f)
    obtain ⟨hstate₂, hmoves₂, hkeys₂⟩ := (quiet_reown changes actorId).andThen
      ((changes.restate actorId f).andThen (changes.reassign actorId))
    obtain ⟨hstate₃, hmoves₃, hkeys₃⟩ := (quiet_renote changes actorId).andThen
      (((changes.restate actorId f).andThen (changes.reassign actorId)).andThen
        (changes.reown actorId))
    rw [hstate₃, hstate₂, hstate₁, hmoves₃, hmoves₂, hmoves₁, hkeys₃, hkeys₂, hkeys₁,
      FindingUpdate.restate]
    cases hmove : changes.movingTo f with
    | none => exact ⟨rfl, Or.inl ⟨rfl, rfl, rfl⟩⟩
    | some target =>
        rw [hmove] at hlegal
        refine ⟨rfl, Or.inr ⟨target, rfl, ?_, rfl, ?_⟩⟩
        · by_contra hno
          simp [Option.filter, hno] at hlegal
        · simp only [transition, stateMoves, FindingEvent.Moves]
          split_ifs <;> rfl

@[simp] theorem applyRule_state (f : Finding) (rule : Option SuppressionRule) (now : ℕ) :
    (applyRule f rule now).state = f.state := by
  cases rule with
  | some rule => rfl
  | none =>
      unfold applyRule release
      split_ifs <;> rfl

@[simp] theorem rekeyed_state (f : Finding) (p : FindingPayload) :
    (rekeyed f p).state = f.state := by
  unfold rekeyed
  split_ifs <;> rfl

theorem refresh_state (f : Finding) (scanId : ℕ) (p : FindingPayload)
    (rule : Option SuppressionRule) (now : ℕ) :
    (refresh f scanId p rule now).state = if f.state = .resolved then .opened else f.state := by
  simp [refresh]

theorem ruleEvents_quiet (f : Finding) (scanId : ℕ) (rule : Option SuppressionRule) :
    stateMoves (ruleEvents f scanId rule) = [] ∧ systemKeys (ruleEvents f scanId rule) = [] := by
  unfold ruleEvents
  cases rule <;> dsimp only <;> split_ifs <;> exact ⟨rfl, rfl⟩

def reopenings (scanId : ℕ) (f : FindingRecord)
    (sightings : List (FindingPayload × Option SuppressionRule)) : List FindingEvent :=
  if sightings ≠ [] ∧ f.state = .resolved then [reopenedEvent scanId] else []

theorem sight_spec (scanId now : ℕ) (f : FindingRecord) (p : FindingPayload)
    (rule : Option SuppressionRule) :
    (sight scanId now f p rule).1.state = (if f.state = .resolved then .opened else f.state) ∧
      stateMoves (sight scanId now f p rule).2 = reopenings scanId f [(p, rule)] ∧
      systemKeys (sight scanId now f p rule).2 = systemKeys (reopenings scanId f [(p, rule)]) := by
  obtain ⟨hmoves, hkeys⟩ := ruleEvents_quiet f.toFinding scanId rule
  refine ⟨?_, ?_, ?_⟩
  · simp [sight, refresh_state]
  · by_cases hresolved : f.state = .resolved
    · simp only [sight, reopenings, hresolved, if_true, stateMoves_append, hmoves]
      rfl
    · simp [sight, reopenings, hresolved, hmoves]
  · by_cases hresolved : f.state = .resolved
    · simp only [sight, reopenings, hresolved, if_true, systemKeys_append, hkeys]
      rfl
    · simp [sight, reopenings, hresolved, hkeys]

/-- However often a submission reports a finding, it re-opens it once at most. -/
theorem sightAll_spec (scanId now : ℕ) (f : FindingRecord)
    (sightings : List (FindingPayload × Option SuppressionRule)) :
    (sightAll scanId now f sightings).1.state =
        (if sightings ≠ [] ∧ f.state = .resolved then .opened else f.state) ∧
      stateMoves (sightAll scanId now f sightings).2 = reopenings scanId f sightings ∧
      systemKeys (sightAll scanId now f sightings).2 =
        systemKeys (reopenings scanId f sightings) := by
  have hfold : ∀ t : Triaged,
      let t' := sightings.foldl (fun t s => t.andThen fun f => sight scanId now f s.1 s.2) t
      t'.1.state = (if sightings ≠ [] ∧ t.1.state = .resolved then .opened else t.1.state) ∧
        stateMoves t'.2 = stateMoves t.2 ++ reopenings scanId t.1 sightings ∧
        systemKeys t'.2 = systemKeys t.2 ++ systemKeys (reopenings scanId t.1 sightings) := by
    induction sightings with
    | nil => simp [reopenings, systemKeys]
    | cons s sightings ih =>
        intro t
        obtain ⟨hstate, hmoves, hkeys⟩ := ih (t.andThen fun f => sight scanId now f s.1 s.2)
        obtain ⟨hsight, hsightMoves, hsightKeys⟩ := sight_spec scanId now t.1 s.1 s.2
        have hnow : (t.andThen fun f => sight scanId now f s.1 s.2).1.state =
            if t.1.state = .resolved then .opened else t.1.state := hsight
        -- once sighted the finding is not resolved, so nothing re-opens it again
        have hquiet : reopenings scanId (t.andThen fun f => sight scanId now f s.1 s.2).1
            sightings = [] := by
          by_cases hresolved : t.1.state = .resolved <;> simp [reopenings, hnow, hresolved]
        rw [hquiet] at hmoves hkeys
        refine ⟨?_, ?_, ?_⟩
        · rw [List.foldl_cons, hstate, hnow]
          by_cases hresolved : t.1.state = .resolved <;> simp [hresolved]
        · rw [List.foldl_cons, hmoves, List.append_nil]
          simp only [Triaged.andThen, stateMoves_append, hsightMoves, reopenings]
          simp
        · rw [List.foldl_cons, hkeys]
          simp only [Triaged.andThen, systemKeys_append, hsightKeys, reopenings]
          simp [systemKeys]
  have hstart := hfold (f, [])
  simpa [sightAll, stateMoves, systemKeys] using hstart

end IcebergSST
