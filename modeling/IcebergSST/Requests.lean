import IcebergSST.Library.Machine
import IcebergSST.Transactions

/-!
# Requests in flight

One task with every attempt at it. An attempt lives until its engine stops, whoever
holds the lease by then, and engines may share an identity. What an engine sends waits
to be read, is checked against the row as one read returns it, waits for the scan lock,
and is then decided; its answer may be read or lost. Any other step can fall between
two of these.

The attempt a batch came from, what a submission was merged onto and whether a batch was
committed since a request was checked are history, which no code reads.
-/

namespace IcebergSST

variable {κ β χ ρ : Type}

inductive FindingTally
  | findings
  | suppressed
  | reopened
  | belowThreshold
  | rekeyed
  deriving DecidableEq, Repr

abbrev IngestOutcome := FindingTally → ℤ

/-- A body, with the attempt that sent it where that is an engine's batch. -/
inductive Message (κ χ ρ : Type)
  | progress (sender : ℕ) (body : ProgressSubmission κ χ)
  | results (body : ResultsSubmission κ ρ)

/-- How far the API is with a request. A checked one holds the row its checks read, and
whether a batch was committed since. -/
inductive Stage (χ ρ : Type)
  | sent
  | checked (row : ScanTask χ ρ) (overtaken : Bool)
  | answered (answer : Except Refusal ℕ)

structure Request (κ χ ρ : Type) where
  engine : EngineId
  message : Message κ χ ρ
  stage : Stage χ ρ := .sent

/-- The first read and the checks against it. -/
def Request.check (db : Db χ ρ) (q : Request κ χ ρ) : Stage χ ρ :=
  let refusal :=
    match q.message with
    | .progress _ body => progressRefusal db.task q.engine body
    | .results body =>
        if body.Valid then resultsRefusal db q.engine body else some .unprocessable
  match refusal with
  | some refusal => .answered (.error refusal)
  | none => .checked db.task false

def Request.overtake (q : Request κ χ ρ) : Request κ χ ρ :=
  match q.stage with
  | .checked row _ => { q with stage := .checked row true }
  | _ => q

/-- What an attempt is doing: inside the loop, inside `deliver` at the yield of a unit,
waiting for the answer to a call, or reporting. -/
inductive Activity (κ β ρ : Type)
  | looping
  | delivering (unit : ContentUnit κ β) (call : Option ℕ)
  | reporting (body : ResultsSubmission κ ρ)
  | over

/-- `acknowledged` holds the batches the ledger advanced past. -/
structure Worker (κ β χ ρ : Type) where
  lease : Lease κ β χ
  fetch : Fetch κ β χ ρ
  activity : Activity κ β ρ := .looping
  history : Events κ β χ ρ := []
  acknowledged : List (ProgressSubmission κ χ) := []

/-- The unit of a yield at which a flush is due, with the batcher that delivers. -/
def Fetch.flushing [DecidableEq χ] (lease : Lease κ β χ) (f : Fetch κ β χ ρ)
    (e : ConnectorEvent κ β χ ρ) (t : Tick) : Option (ContentUnit κ β × Batcher κ χ) :=
  match e, f.batcher, f.outcome.checkpoint with
  | .yield unit, some b, some published =>
      if t.cancelled = false ∧ b.due (some published) t.now then
        some (unit, load lease b published f.candidates)
      else none
  | _, _, _ => none

def Fetch.pass (f : Fetch κ β χ ρ) (e : ConnectorEvent κ β χ ρ) (t : Tick) : Fetch κ β χ ρ :=
  match e with
  | .yield unit => if t.cancelled then { f with exit := some .cancelled } else f.inspect unit
  | e => { f with outcome := e.note f.outcome }

theorem Fetch.flushing_eq_some [DecidableEq χ] {lease : Lease κ β χ} {f : Fetch κ β χ ρ}
    {e : ConnectorEvent κ β χ ρ} {t : Tick} {unit : ContentUnit κ β} {b' : Batcher κ χ}
    (h : f.flushing lease e t = some (unit, b')) :
    ∃ b published, f.batcher = some b ∧ f.outcome.checkpoint = some published ∧
      b' = load lease b published f.candidates := by
  unfold Fetch.flushing at h
  split at h
  · rename_i b published hb hpublished
    split_ifs at h
    obtain ⟨rfl, rfl⟩ := Prod.mk.inj (Option.some.inj h)
    exact ⟨b, published, hb, hpublished, rfl⟩
  · cases h

theorem Fetch.step_eq_pass [DecidableEq χ] {lease : Lease κ β χ} {f : Fetch κ β χ ρ}
    {e : ConnectorEvent κ β χ ρ} {t : Tick} (hexit : f.exit = none)
    (hquiet : f.flushing lease e t = none) (api : ApiState κ χ ρ) :
    f.step lease e t api = (f.pass e t, api) := by
  unfold Fetch.step Fetch.pass
  rw [hexit]
  cases e with
  | yield unit =>
      simp only [Option.isSome_none, Bool.false_eq_true, if_false]
      by_cases hcancelled : t.cancelled = true
      · simp only [hcancelled, if_true]
      · simp only [hcancelled, if_false, Bool.false_eq_true]
        unfold Fetch.beforeUnit
        unfold Fetch.flushing at hquiet
        cases hb : f.batcher with
        | none => rfl
        | some b =>
            cases hc : f.outcome.checkpoint with
            | none => rfl
            | some published =>
                rw [hb, hc] at hquiet
                have hcancelled : t.cancelled = false := by simpa using hcancelled
                simp only [hcancelled, true_and] at hquiet
                split_ifs at hquiet with hdue
                simp only [hdue, if_false, Bool.false_eq_true]
  | _ => rfl

inductive WorkerAction (κ β χ ρ : Type)
  | connector (e : ConnectorEvent κ β χ ρ) (t : Tick)
  /-- The retries of the call are over. -/
  | giveUp (rearmed : ℚ)
  | report (exit : Exit)
  | die

namespace Worker

def move (r : Worker κ β χ ρ) (e : ConnectorEvent κ β χ ρ) (fetch : Fetch κ β χ ρ) :
    Worker κ β χ ρ :=
  { r with
    fetch
    activity := .looping
    history := if fetch.exit = none then r.history ++ [e] else r.history }

/-- Back from `deliver`: the next interval is armed and the unit inspected. -/
def resume (r : Worker κ β χ ρ) (b : Batcher κ χ) (rearmed : ℚ) (unit : ContentUnit κ β) :
    Worker κ β χ ρ :=
  let armed := { b with deadline := rearmed + checkpointBatchSeconds }
  r.move (.yield unit) ({ r.fetch with batcher := some armed }.inspect unit)

def step [DecidableEq χ] (r : Worker κ β χ ρ) : WorkerAction κ β χ ρ → Option (Worker κ β χ ρ)
  | .connector e t =>
      match r.activity with
      | .looping =>
          if r.fetch.exit = none then
            match r.fetch.flushing r.lease e t with
            | some (unit, b) =>
                some { r with
                  fetch := { r.fetch with batcher := some b }
                  activity := .delivering unit none }
            | none => some (r.move e (r.fetch.pass e t))
          else none
      | _ => none
  | .giveUp rearmed =>
      match r.activity, r.fetch.batcher with
      | .delivering unit _, some b => some (r.resume b rearmed unit)
      | _, _ => none
  | .report exit =>
      match r.activity with
      | .looping =>
          (r.fetch.report r.lease (r.fetch.exit.getD exit)).map fun body =>
            { r with activity := .reporting body }
      | _ => none
  | .die => some { r with activity := .over }

section Steps

variable [DecidableEq χ] {r r' : Worker κ β χ ρ}

/-- The loop takes an event to its end, or begins to deliver at the yield of a unit. -/
theorem step_connector {e : ConnectorEvent κ β χ ρ} {t : Tick}
    (h : r.step (.connector e t) = some r') : r.activity = .looping ∧ r.fetch.exit = none ∧
      (r' = r.move e (r.fetch.pass e t) ∨
        ∃ unit b published, r.fetch.batcher = some b ∧
          r.fetch.outcome.checkpoint = some published ∧
          r' = { r with
            fetch := { r.fetch with
              batcher := some (Fetch.load r.lease b published r.fetch.candidates) }
            activity := .delivering unit none }) := by
  simp only [Worker.step] at h
  split at h
  · rename_i hact
    split_ifs at h with hexit
    refine ⟨hact, hexit, ?_⟩
    cases hflush : r.fetch.flushing r.lease e t with
    | none =>
        rw [hflush] at h
        exact Or.inl (Option.some.inj h).symm
    | some p =>
        obtain ⟨unit, b'⟩ := p
        rw [hflush] at h
        obtain ⟨b, published, hb, hpublished, rfl⟩ := Fetch.flushing_eq_some hflush
        exact Or.inr ⟨unit, b, published, hb, hpublished, (Option.some.inj h).symm⟩
  · cases h

theorem step_giveUp {rearmed : ℚ} (h : r.step (.giveUp rearmed) = some r') :
    ∃ unit call b, r.activity = .delivering unit call ∧ r.fetch.batcher = some b ∧
      r' = r.resume b rearmed unit := by
  simp only [Worker.step] at h
  split at h
  · rename_i unit call b hact hb
    exact ⟨unit, call, b, hact, hb, (Option.some.inj h).symm⟩
  · cases h

theorem step_report {exit : Exit} (h : r.step (.report exit) = some r') :
    r.activity = .looping ∧ ∃ body,
      r.fetch.report r.lease (r.fetch.exit.getD exit) = some body ∧
        r' = { r with activity := .reporting body } := by
  simp only [Worker.step] at h
  split at h
  · rename_i hact
    obtain ⟨body, hbody, rfl⟩ := Option.map_eq_some_iff.1 h
    exact ⟨hact, body, hbody, rfl⟩
  · cases h

end Steps

def message (i : ℕ) (r : Worker κ β χ ρ) : Option (Message κ χ ρ) :=
  match r.activity with
  | .delivering _ _ =>
      (r.fetch.batcher.bind (·.inFlight)).map fun batch => .progress i batch.payload
  | .reporting body => some (.results body)
  | _ => none

def call (k : ℕ) (r : Worker κ β χ ρ) : Worker κ β χ ρ :=
  match r.activity with
  | .delivering unit _ => { r with activity := .delivering unit (some k) }
  | _ => r

def receive (r : Worker κ β χ ρ) (answer : Except Refusal ℕ) (rearmed : ℚ) :
    Option (Worker κ β χ ρ) :=
  match r.activity, r.fetch.batcher with
  | .delivering unit _, some b =>
      match b.inFlight, answer with
      | some batch, .ok reported =>
          let acknowledged :=
            if reported < batch.payload.sequence then r.acknowledged
            else r.acknowledged ++ [batch.payload]
          some ({ r with acknowledged }.resume (b.acknowledge batch reported) rearmed unit)
      | _, _ => some (r.resume b rearmed unit)
  | _, _ => none

end Worker

/-- A batch the API stored, with the coverage the row was left with. -/
structure StoredBatch (κ χ : Type) where
  sender : ℕ
  body : ProgressSubmission κ χ
  outcome : IngestOutcome
  coverage : Option TaskCoverageReport

/-- Results the API recorded: the row's counter at the commit, and the coverage of the
object the submission was merged onto. -/
structure StoredResults (κ ρ : Type) where
  body : ResultsSubmission κ ρ
  outcome : IngestOutcome
  sequence : ℕ
  base : Option TaskCoverageReport

structure Wire (κ β χ ρ : Type) where
  db : Db χ ρ
  tallies : IngestOutcome := 0
  workers : List (Worker κ β χ ρ) := []
  requests : List (Request κ χ ρ) := []
  batches : List (StoredBatch κ χ) := []
  results : List (StoredResults κ ρ) := []
  others : Counts
  otherTallies : IngestOutcome := 0

inductive WireAction (κ β χ ρ : Type)
  | lease (grant : Grant κ β) (now : ℚ)
  | failLease (engine : EngineId) (failure : LeaseFailure)
  | worker (i : ℕ) (a : WorkerAction κ β χ ρ)
  | transmit (i : ℕ)
  /-- Results sent by any other client. -/
  | post (engine : EngineId) (body : ResultsSubmission κ ρ)
  | check (k : ℕ)
  | commit (k : ℕ) (outcome : IngestOutcome)
  | receive (i : ℕ) (rearmed : ℚ)
  | renew
  | reclaim
  | cancel
  | otherReport (counts : Counts) (outcome : IngestOutcome) (rulepackVersion : Option String)

namespace Wire

def start (scan : Scan) (id : ℕ) (kind : ScanTaskKind) : Wire κ β χ ρ where
  db := { scan, task := { id, kind } }
  others := scan.counts

def answer (w : Wire κ β χ ρ) (k : ℕ) (q : Request κ χ ρ) (answer : Except Refusal ℕ) :
    Wire κ β χ ρ :=
  { w with requests := w.requests.set k { q with stage := .answered answer } }

/-- A stored batch overtakes every request that is checked and not yet decided. -/
def storeBatch (w : Wire κ β χ ρ) (k : ℕ) (q : Request κ χ ρ) (sender : ℕ)
    (body : ProgressSubmission κ χ) (db : Db χ ρ) (outcome : IngestOutcome) : Wire κ β χ ρ :=
  { w with
    db
    tallies := w.tallies + outcome
    batches := w.batches ++ [⟨sender, body, outcome, db.task.coverage⟩]
    requests := (w.requests.map Request.overtake).set k
      { q with stage := .answered (.ok body.sequence) } }

def storeResults (w : Wire κ β χ ρ) (k : ℕ) (q : Request κ χ ρ) (row : ScanTask χ ρ)
    (body : ResultsSubmission κ ρ) (db : Db χ ρ) (outcome : IngestOutcome) : Wire κ β χ ρ :=
  { w with
    db
    tallies := w.tallies + outcome
    results := w.results ++ [⟨body, outcome, w.db.task.checkpointSequence, row.coverage⟩]
    requests := w.requests.set k { q with stage := .answered (.ok 0) } }

def commit (w : Wire κ β χ ρ) (k : ℕ) (q : Request κ χ ρ) (row : ScanTask χ ρ)
    (outcome : IngestOutcome) : Wire κ β χ ρ :=
  match q.message with
  | .progress sender body =>
      match lockedProgress row w.db q.engine body with
      | (db, .ok { replay := false, .. }) => w.storeBatch k q sender body db outcome
      | (_, .ok { sequence, replay := true }) => w.answer k q (.ok sequence)
      | (_, .error refusal) => w.answer k q (.error refusal)
  | .results body =>
      match lockedResults row w.db q.engine body with
      | (db, .ok { replay := false, .. }) => w.storeResults k q row body db outcome
      | (_, .ok { replay := true, .. }) => w.answer k q (.ok 0)
      | (_, .error refusal) => w.answer k q (.error refusal)

def step [DecidableEq χ] (w : Wire κ β χ ρ) : WireAction κ β χ ρ → Option (Wire κ β χ ρ)
  | .lease g now =>
      (leaseTask w.db g).map fun granted =>
        { w with
          db := granted.1
          workers := w.workers ++ [{ lease := granted.2, fetch := .start granted.2 now }] }
  | .failLease engine failure => (failLease w.db engine failure).map fun db => { w with db }
  | .worker i a =>
      (w.workers[i]?.bind (·.step a)).map fun r => { w with workers := w.workers.set i r }
  | .transmit i =>
      w.workers[i]?.bind fun r =>
        (r.message i).map fun message =>
          { w with
            workers := w.workers.set i (r.call w.requests.length)
            requests := w.requests ++ [{ engine := r.lease.engine, message }] }
  | .post engine body =>
      some { w with requests := w.requests ++ [{ engine, message := .results body }] }
  | .check k =>
      match w.requests[k]? with
      | some q =>
          match q.stage with
          | .sent => some { w with requests := w.requests.set k { q with stage := q.check w.db } }
          | _ => none
      | none => none
  | .commit k outcome =>
      match w.requests[k]? with
      | some q =>
          match q.stage with
          | .checked row _ => some (w.commit k q row outcome)
          | _ => none
      | none => none
  | .receive i rearmed =>
      match w.workers[i]? with
      | some r =>
          match r.activity with
          | .delivering _ (some k) =>
              match w.requests[k]? with
              | some { stage := .answered answer, .. } =>
                  (r.receive answer rearmed).map fun r => { w with workers := w.workers.set i r }
              | _ => none
          | _ => none
      | none => none
  | .renew => some { w with db := renewLease w.db }
  | .reclaim => some { w with db := reclaimExpiredLease w.db }
  | .cancel => some { w with db := cancelTask w.db }
  | .otherReport counts outcome version =>
      some { w with
        db := { w.db with scan := recordRulepack (mergeScanCounts w.db.scan counts) version }
        tallies := w.tallies + outcome
        others := w.others + counts
        otherTallies := w.otherTallies + outcome }

section Steps

variable [DecidableEq χ] {w w' : Wire κ β χ ρ}

theorem step_transmit {i : ℕ} (h : w.step (.transmit i) = some w') :
    ∃ r message, w.workers[i]? = some r ∧ r.message i = some message ∧
      w' = { w with
        workers := w.workers.set i (r.call w.requests.length)
        requests := w.requests ++ [{ engine := r.lease.engine, message }] } := by
  obtain ⟨r, hr, hsend⟩ := Option.bind_eq_some_iff.1 h
  obtain ⟨message, hmessage, rfl⟩ := Option.map_eq_some_iff.1 hsend
  exact ⟨r, message, hr, hmessage, rfl⟩

theorem step_check {k : ℕ} (h : w.step (.check k) = some w') :
    ∃ q, w.requests[k]? = some q ∧ q.stage = .sent ∧
      w' = { w with requests := w.requests.set k { q with stage := q.check w.db } } := by
  simp only [Wire.step] at h
  split at h
  · rename_i q hq
    split at h
    · rename_i hstage
      exact ⟨q, hq, hstage, (Option.some.inj h).symm⟩
    · cases h
  · cases h

theorem step_commit {k : ℕ} {outcome : IngestOutcome}
    (h : w.step (.commit k outcome) = some w') :
    ∃ q row overtaken, w.requests[k]? = some q ∧ q.stage = .checked row overtaken ∧
      w' = w.commit k q row outcome := by
  simp only [Wire.step] at h
  split at h
  · rename_i q hq
    split at h
    · rename_i row overtaken hstage
      exact ⟨q, row, overtaken, hq, hstage, (Option.some.inj h).symm⟩
    · cases h
  · cases h

theorem step_receive {i : ℕ} {rearmed : ℚ} (h : w.step (.receive i rearmed) = some w') :
    ∃ r unit k q answer r', w.workers[i]? = some r ∧ r.activity = .delivering unit (some k) ∧
      w.requests[k]? = some q ∧ q.stage = .answered answer ∧
      r.receive answer rearmed = some r' ∧ w' = { w with workers := w.workers.set i r' } := by
  simp only [Wire.step] at h
  split at h
  · rename_i r hr
    split at h
    · rename_i unit k hact
      split at h
      · rename_i engine message answer hq
        obtain ⟨r', hreceive, rfl⟩ := Option.map_eq_some_iff.1 h
        exact ⟨r, unit, k, _, answer, r', hr, hact, hq, rfl, hreceive, rfl⟩
      · cases h
    · cases h
  · cases h

end Steps

/-- A checked request is decided in one of three ways: its batch or its results are
stored, or it is answered and nothing changes. -/
theorem commit_cases (w : Wire κ β χ ρ) (k : ℕ) (q : Request κ χ ρ) (row : ScanTask χ ρ)
    (outcome : IngestOutcome) :
    (∃ i body db, q.message = .progress i body ∧ BatchStored row w.db db q.engine body ∧
      w.commit k q row outcome = w.storeBatch k q i body db outcome) ∨
    (∃ body db, q.message = .results body ∧ ResultsStored w.db db q.engine body ∧
      w.commit k q row outcome = w.storeResults k q row body db outcome) ∨
    ∃ answer, w.commit k q row outcome = w.answer k q answer ∧ ∀ n, answer = .ok n →
      n ≤ w.db.task.checkpointSequence ∧
        ∀ i body, q.message = .progress i body → n = w.db.task.checkpointSequence ∧
          w.db.task.engineId = some q.engine ∧
          (w.db.task.status.Leased → n + 1 ≠ body.sequence) := by
  unfold commit
  cases hm : q.message with
  | progress i body =>
      simp only
      rcases lockedProgress_cases row w.db q.engine body with ⟨hstored, hans⟩ | ⟨hsame, hans⟩
      · left
        cases hl : lockedProgress row w.db q.engine body with
        | mk db answer =>
            rw [hl] at hstored hans
            change answer = _ at hans
            subst hans
            exact ⟨i, body, db, rfl, hstored, rfl⟩
      · right; right
        cases hl : lockedProgress row w.db q.engine body with
        | mk db answer =>
            rw [hl] at hsame hans
            cases answer with
            | error refusal => exact ⟨.error refusal, rfl, fun _ h => by cases h⟩
            | ok a =>
                obtain ⟨rfl, hengine, hseq⟩ := hans a rfl
                refine ⟨.ok w.db.task.checkpointSequence, rfl, fun n hn => ?_⟩
                obtain rfl := Except.ok.inj hn
                refine ⟨le_rfl, fun i' body' hm' => ⟨rfl, hengine, ?_⟩⟩
                obtain ⟨_, rfl⟩ := Message.progress.inj hm'
                exact hseq
  | results body =>
      simp only
      right
      rcases lockedResults_cases row w.db q.engine body with ⟨hstored, n, hans⟩ | ⟨hsame, hans⟩
      · left
        cases hl : lockedResults row w.db q.engine body with
        | mk db answer =>
            rw [hl] at hstored hans
            change answer = _ at hans
            subst hans
            exact ⟨body, db, rfl, hstored, rfl⟩
      · right
        cases hl : lockedResults row w.db q.engine body with
        | mk db answer =>
            rw [hl] at hans
            cases answer with
            | error refusal => exact ⟨.error refusal, rfl, fun _ h => by cases h⟩
            | ok a =>
                obtain ⟨replay, created⟩ := a
                obtain rfl : replay = true := hans _ rfl
                refine ⟨.ok 0, rfl, fun n hn => ?_⟩
                obtain rfl := Except.ok.inj hn
                exact ⟨Nat.zero_le _, fun i' body' hm' => by cases hm'⟩

end Wire

end IcebergSST
