import IcebergSST.Attempt
import IcebergSST.ShareComplete

/-!
# The task of fetching a share

The engine consumes the events of a fetch in its loop. On the way it encodes strings that
come from the share: what a gap names, what a finding's identity hashes, and the bodies of
the requests. A string with a lone surrogate has no encoding, and the exception leaves the
loop, whatever the walk had taken care of before. The task comes to its submission exactly
if no such string turns up and the walk is not left by an `OSError`.
-/

namespace IcebergSST

namespace Fileshare

/-- A secret found in a text. An empty one or a blank rule id, which cannot be hashed, cannot
be built. -/
structure FoundSecret where
  ruleId : PyStr
  secret : PyStr
  redactedSnippet : PyStr
  ruleId_not_blank : blank ruleId = false
  secret_ne_nil : secret ≠ []

structure TextDetection where
  secrets : List FoundSecret
  droppedBelowThreshold : ℕ := 0
  truncated : Bool := false

structure ShareCandidate where
  unit : ShareUnit
  found : FoundSecret

namespace ShareCandidate

/-- What `secret_hash` and `fingerprint` encode. To normalise a string neither adds nor
removes surrogates. -/
def hashed (k : ShareCandidate) : List PyStr :=
  [k.found.secret, k.unit.locator.resourceId, k.found.ruleId]

/-- The strings of the payload that are not the engine's own. -/
def payload (k : ShareCandidate) : List PyStr :=
  [k.unit.locator.resourceId, k.unit.title, k.found.ruleId, k.found.redactedSnippet]

end ShareCandidate

def ShareReference.text : ShareReference → PyStr
  | .path key => key
  | .root name => name
  | .locator resourceId => resourceId

/-- `_candidates` and the tallies of a unit. -/
def unitDetection (detect : PyStr → TextDetection) : UnitDetection ShareCandidate where
  candidates u := (detect u.text).secrets.map fun found => ⟨u, found⟩
  droppedBelowThreshold u := (detect u.text).droppedBelowThreshold
  truncated u := (detect u.text).truncated

/-- What the engine encodes at an event, a batch apart. -/
def FetchEvent.encoded (detect : PyStr → TextDetection) : FetchEvent → List PyStr
  | .record r => [r.ref.text]
  | .yield u =>
      let marked := if (detect u.text).truncated ∧ ¬ u.truncated then [u.locator.resourceId] else []
      marked ++ ((unitDetection detect).candidates u).flatMap ShareCandidate.hashed
  | _ => []

/-- The reference of an object, what its fingerprints hash, its payloads and its checkpoint. -/
def FetchEvent.carried (detect : PyStr → TextDetection) : FetchEvent → List PyStr
  | .scannedFor key => [key]
  | .record r => [r.ref.text]
  | .yield u =>
      u.locator.resourceId ::
        ((unitDetection detect).candidates u).flatMap fun k => k.hashed ++ k.payload
  | .checkpointAt cp => cp.after.toList
  | .raised => []

theorem FetchEvent.mem_carried_of_encoded {detect : PyStr → TextDetection} {ev : FetchEvent}
    {text : PyStr} (h : text ∈ ev.encoded detect) : text ∈ ev.carried detect := by
  cases ev with
  | record r => exact h
  | yield u =>
      simp only [encoded, carried, List.mem_append, List.mem_cons, List.mem_flatMap] at h ⊢
      rcases h with hmarked | ⟨k, hk, htext⟩
      · split_ifs at hmarked
        · exact Or.inl (List.mem_singleton.1 hmarked)
        · simp at hmarked
      · exact Or.inr ⟨k, hk, Or.inl htext⟩
  | scannedFor | checkpointAt | raised => simp [encoded] at h

end Fileshare

open Fileshare

def ProgressSubmission.strings (body : ProgressSubmission ShareCandidate ShareCheckpoint) :
    List PyStr :=
  body.checkpoint.after.toList ++ body.findings.flatMap ShareCandidate.payload

def ResultsSubmission.strings {ρ : Type} (body : ResultsSubmission ShareCandidate ρ) :
    List PyStr :=
  body.findings.flatMap ShareCandidate.payload

namespace Fetch
variable {κ β χ ρ : Type} {lease : Lease κ β χ} {f : Fetch κ β χ ρ} {t : Tick}
  {api : ApiState κ χ ρ} {batch : Batch κ χ}

def inFlight (f : Fetch κ β χ ρ) : Option (Batch κ χ) := f.batcher.bind Batcher.inFlight

def delivered [DecidableEq χ] (lease : Lease κ β χ) (f : Fetch κ β χ ρ) (t : Tick) :
    Option (Batch κ χ) :=
  match f.batcher, f.outcome.checkpoint with
  | some b, some published =>
      if b.due (some published) t.now then (load lease b published f.candidates).inFlight else none
  | _, _ => none

theorem delivered_cases [DecidableEq χ] (h : f.delivered lease t = some batch) :
    f.inFlight = some batch ∨
      f.outcome.checkpoint = some batch.payload.checkpoint ∧
        ∀ k ∈ batch.payload.findings, k ∈ f.candidates := by
  unfold delivered at h
  split at h
  · rename_i b published hb hpublished
    split_ifs at h
    unfold load at h
    split at h
    · rename_i pending _ _
      obtain rfl := Option.some.inj h
      refine Or.inr ⟨hpublished, ?_⟩
      intro k hk
      have hslice := (List.mem_filter.1 hk).1
      exact List.mem_of_mem_take (List.mem_of_mem_drop hslice)
    · exact Or.inl (by rw [inFlight, hb]; exact h)
  · cases h

theorem inFlight_deliver {b : Batcher κ χ} {engine : EngineId} {fates : List Fate}
    (h : (b.deliver engine fates api).1.inFlight = some batch) : b.inFlight = some batch := by
  unfold Batcher.deliver at h
  split at h
  · exact h
  · split at h
    · unfold Batcher.acknowledge at h
      split_ifs at h
    · exact h

theorem inFlight_inspect (f : Fetch κ β χ ρ) (u : ContentUnit κ β) :
    (f.inspect u).inFlight = f.inFlight := by
  have hboundary : ∀ (b : Option (Batcher κ χ)) n coverage counts,
      (b.map (fun b => b.boundary n coverage counts)).bind Batcher.inFlight =
        b.bind Batcher.inFlight := by
    intro b n coverage counts
    cases b <;> rfl
  unfold Fetch.inspect
  dsimp only
  split
  · rfl
  · exact hboundary _ _ _ _

theorem inFlight_step [DecidableEq χ] {e : ConnectorEvent κ β χ ρ}
    (h : (f.step lease e t api).1.inFlight = some batch) :
    f.delivered lease t = some batch ∨ f.inFlight = some batch := by
  unfold Fetch.step at h
  by_cases hexit : f.exit.isSome
  · rw [if_pos hexit] at h
    exact Or.inr h
  · rw [if_neg hexit] at h
    cases e with
    | yield u =>
        by_cases hcancel : t.cancelled
        · simp only [hcancel, if_true] at h
          exact Or.inr h
        · simp only [hcancel, Bool.false_eq_true, if_false, inFlight_inspect] at h
          unfold beforeUnit at h
          split at h
          · rename_i b published hb hpublished
            split_ifs at h with hdue
            · left
              simp only [delivered, hb, hpublished, if_pos hdue]
              exact inFlight_deliver h
            · exact Or.inr h
          · exact Or.inr h
    | _ => exact Or.inr h

end Fetch

/-- The exception that leaves the loop or the submission. -/
inductive TaskError
  | unicodeEncodeError
  | osError
  | valueError
  | taskCancelled
  deriving DecidableEq, Repr

/-- What the clock, the network and the API do around a task that is not cancelled. -/
structure Surroundings (ρ : Type) where
  started : ℚ := 0
  /-- At a turn of the walk. -/
  tick : ℕ → Tick
  submission : List Fate := []
  api : ApiState ShareCandidate ShareCheckpoint ρ
  not_cancelled : ∀ turn, (tick turn).cancelled = false

namespace ShareTask

variable {ρ : Type} (detect : PyStr → TextDetection)
  (lease : Lease ShareCandidate ShareReference ShareCheckpoint)

abbrev LoopState (ρ : Type) :=
  Fetch ShareCandidate ShareReference ShareCheckpoint ρ ×
    ApiState ShareCandidate ShareCheckpoint ρ

def batchStrings (f : Fetch ShareCandidate ShareReference ShareCheckpoint ρ) (ev : FetchEvent)
    (t : Tick) : List PyStr :=
  if ev.IsUnit ∧ ¬ t.cancelled then
    (f.delivered lease t).elim [] fun batch => batch.payload.strings
  else []

/-- One event in the loop of the engine, with every string it encodes there. -/
def step (w : Surroundings ρ) (st : LoopState ρ) (x : ℕ × FetchEvent) :
    Except TaskError (LoopState ρ) :=
  match x.2.toConnector (unitDetection detect) with
  | none => .error .osError
  | some e =>
      if (batchStrings lease st.1 x.2 (w.tick x.1)).all encodes then
        let moved := st.1.step lease e (w.tick x.1) st.2
        match moved.1.exit with
        | some .cancelled => .error .taskCancelled
        | some _ => .error .valueError
        | none =>
            if (x.2.encoded detect).all encodes then .ok moved else .error .unicodeEncodeError
      else .error .unicodeEncodeError

def submit (w : Surroundings ρ) (st : LoopState ρ) : Except TaskError (LoopState ρ) :=
  match st.1.report lease .exhausted with
  | none => .error .taskCancelled
  | some body =>
      if body.strings.all encodes then
        .ok (st.1, st.1.finish lease .exhausted w.submission st.2)
      else .error .unicodeEncodeError

/-- The engine's loop over the events of a fetch, and the submission after it. -/
def run (w : Surroundings ρ) (log : List (ℕ × FetchEvent)) : Except TaskError (LoopState ρ) :=
  (log.foldlM (step detect lease w) (.start lease w.started, w.api)).bind (submit lease w)

section Loop
variable {detect lease} {w : Surroundings ρ} {log log' : List (ℕ × FetchEvent)}
  {x : ℕ × FetchEvent} {st st' : LoopState ρ} {batch : Batch ShareCandidate ShareCheckpoint}

/-- The calls of the connector protocol that a log amounts to in the loop. -/
abbrev calls (ρ : Type) (detect : PyStr → TextDetection) (log : List (ℕ × FetchEvent)) :
    Events ShareCandidate ShareReference ShareCheckpoint ρ :=
  FileshareConnector.history (unitDetection detect) log

/-- No string an object brings with it lacks an encoding. -/
def Encodable (detect : PyStr → TextDetection) (log : List (ℕ × FetchEvent)) : Prop :=
  ∀ x ∈ log, ∀ text ∈ x.2.carried detect, encodes text

theorem mem_calls_checkpointAt {cp : ShareCheckpoint}
    (h : ConnectorEvent.checkpointAt cp ∈ calls ρ detect log) :
    ∃ turn, (turn, FetchEvent.checkpointAt cp) ∈ log := by
  obtain ⟨⟨turn, ev⟩, hx, hev⟩ := List.mem_filterMap.1 h
  cases ev with
  | checkpointAt cp' =>
      obtain rfl : cp' = cp := by simpa [FetchEvent.toConnector] using hev
      exact ⟨turn, hx⟩
  | record r => cases r <;> simp [FetchEvent.toConnector] at hev
  | scannedFor | yield | raised => simp [FetchEvent.toConnector] at hev

theorem mem_candidatesOf_calls {k : ShareCandidate} (h : k ∈ candidatesOf (calls ρ detect log)) :
    ∃ turn u, (turn, FetchEvent.yield u) ∈ log ∧ k ∈ (unitDetection detect).candidates u := by
  obtain ⟨e, he, hk⟩ := List.mem_flatMap.1 h
  obtain ⟨⟨turn, ev⟩, hx, hev⟩ := List.mem_filterMap.1 he
  cases ev with
  | yield u =>
      obtain rfl := Option.some.inj hev
      exact ⟨turn, u, hx, hk⟩
  | record r =>
      cases r <;> obtain rfl := Option.some.inj hev <;> simp [ConnectorEvent.candidates] at hk
  | scannedFor | checkpointAt =>
      obtain rfl := Option.some.inj hev
      simp [ConnectorEvent.candidates] at hk
  | raised => cases hev

theorem Encodable.payload {k : ShareCandidate} (h : Encodable detect log)
    (hk : k ∈ candidatesOf (calls ρ detect log)) : ∀ text ∈ k.payload, encodes text := by
  intro text htext
  obtain ⟨turn, u, hyield, hk⟩ := mem_candidatesOf_calls hk
  refine h _ hyield text (List.mem_cons_of_mem _ (List.mem_flatMap.2 ⟨k, hk, ?_⟩))
  exact List.mem_append_right _ htext

/-- The loop was not left at these events, and its accumulators trace them. -/
structure Going (detect : PyStr → TextDetection)
    (lease : Lease ShareCandidate ShareReference ShareCheckpoint)
    (log : List (ℕ × FetchEvent)) (st : LoopState ρ) : Prop where
  exit : st.1.exit = none
  traces : st.1.Traces lease (calls ρ detect log)

theorem going_start (w : Surroundings ρ) :
    Going detect lease [] ((.start lease w.started, w.api) : LoopState ρ) :=
  ⟨rfl, Fetch.traces_start lease w.started⟩

theorem step_eq_ok (h : step detect lease w st x = .ok st') :
    ∃ e, x.2.toConnector (unitDetection detect) = some e ∧
      st' = st.1.step lease e (w.tick x.1) st.2 ∧ st'.1.exit = none := by
  unfold step at h
  split at h
  · cases h
  · rename_i e he
    split at h
    · dsimp only at h
      split at h
      · cases h
      · cases h
      · rename_i hexit
        split_ifs at h
        obtain rfl := Except.ok.inj h
        exact ⟨e, he, rfl, hexit⟩
    · cases h

theorem Going.step (hg : Going detect lease log st) (h : step detect lease w st x = .ok st') :
    Going detect lease (log ++ [x]) st' ∧ x.2 ≠ .raised := by
  obtain ⟨e, he, rfl, hexit⟩ := step_eq_ok h
  refine ⟨⟨hexit, ?_⟩, ?_⟩
  · have htraces := hg.traces.step hg.exit hexit
    simpa [calls, FileshareConnector.history, he] using htraces
  · intro hraised
    rw [hraised] at he
    cases he

theorem Going.foldlM (hg : Going detect lease log st)
    (h : log'.foldlM (ShareTask.step detect lease w) st = .ok st') :
    Going detect lease (log ++ log') st' ∧ ∀ x ∈ log', x.2 ≠ .raised := by
  induction log' generalizing log st with
  | nil =>
      obtain rfl := Except.ok.inj h
      exact ⟨by simpa using hg, by simp⟩
  | cons x log' ih =>
      rw [List.foldlM_cons] at h
      cases hstep : ShareTask.step detect lease w st x with
      | error error => simp [hstep, bind, Except.bind] at h
      | ok next =>
          obtain ⟨hnext, hx⟩ := hg.step hstep
          obtain ⟨hend, hrest⟩ := ih hnext (by simpa [hstep, bind, Except.bind] using h)
          exact ⟨by simpa using hend, by simpa [hx] using hrest⟩

theorem Going.encodes_delivered (hg : Going detect lease log st) (hlog : Encodable detect log)
    (hflight : ∀ batch, st.1.inFlight = some batch → batch.payload.strings.all encodes) {t : Tick}
    (h : st.1.delivered lease t = some batch) : batch.payload.strings.all encodes := by
  rcases Fetch.delivered_cases h with hold | ⟨hcheckpoint, hfindings⟩
  · exact hflight batch hold
  · refine List.all_eq_true.2 fun text htext => ?_
    rcases List.mem_append.1 htext with hafter | hpayload
    · obtain ⟨turn, hx⟩ := mem_calls_checkpointAt (hg.traces.published _ hcheckpoint)
      exact hlog _ hx text hafter
    · obtain ⟨k, hk, htext⟩ := List.mem_flatMap.1 hpayload
      have hk := hfindings k hk
      rw [hg.traces.candidates] at hk
      exact hlog.payload hk text htext

/-- The loop gets past an event whose strings can be encoded. -/
theorem Going.step_ok (hg : Going detect lease log st) (hlog : Encodable detect (log ++ [x]))
    (hflight : ∀ batch, st.1.inFlight = some batch → batch.payload.strings.all encodes)
    (hraised : x.2 ≠ .raised)
    (hcover : (coverageOf lease.referenceKey (calls ρ detect (log ++ [x]))).isSome) :
    ∃ st', ShareTask.step detect lease w st x = .ok st' ∧
      ∀ batch, st'.1.inFlight = some batch → batch.payload.strings.all encodes := by
  have hpast : Encodable detect log := fun y hy => hlog y (List.mem_append_left _ hy)
  have hx : (x.2.encoded detect).all encodes :=
    List.all_eq_true.2 fun text htext =>
      hlog x (List.mem_append_right _ (List.mem_singleton_self x)) text
        (FetchEvent.mem_carried_of_encoded htext)
  have hbatch : (batchStrings lease st.1 x.2 (w.tick x.1)).all encodes := by
    unfold batchStrings
    split_ifs
    · cases hdelivered : st.1.delivered lease (w.tick x.1) with
      | none => rfl
      | some batch => exact hg.encodes_delivered hpast hflight hdelivered
    · rfl
  obtain ⟨e, he⟩ : ∃ e, x.2.toConnector (unitDetection detect) = some e := by
    cases hev : x.2 with
    | record r => cases r <;> exact ⟨_, rfl⟩
    | raised => exact absurd hev hraised
    | scannedFor | yield | checkpointAt => exact ⟨_, rfl⟩
  have hexit : (st.1.step lease e (w.tick x.1) st.2).1.exit = none := by
    refine Fetch.step_exit hg.exit (w.not_cancelled x.1) ?_
    have hcalls : calls ρ detect (log ++ [x]) = calls ρ detect log ++ [e] := by
      simp [calls, FileshareConnector.history, he]
    rwa [hcalls, coverageOf_append_singleton, hg.traces.coverage] at hcover
  refine ⟨st.1.step lease e (w.tick x.1) st.2, ?_, ?_⟩
  · simp only [ShareTask.step, he, hbatch, if_true, hexit, hx]
  · intro batch hstep
    rcases Fetch.inFlight_step hstep with hdelivered | hold
    · exact hg.encodes_delivered hpast hflight hdelivered
    · exact hflight batch hold

theorem Going.foldlM_ok (hg : Going detect lease log st)
    (hlog : Encodable detect (log ++ log'))
    (hflight : ∀ batch, st.1.inFlight = some batch → batch.payload.strings.all encodes)
    (hraised : ∀ x ∈ log', x.2 ≠ .raised)
    (hcover : (coverageOf lease.referenceKey (calls ρ detect (log ++ log'))).isSome) :
    ∃ st', log'.foldlM (ShareTask.step detect lease w) st = .ok st' := by
  induction log' generalizing log st with
  | nil => exact ⟨st, rfl⟩
  | cons x log' ih =>
      have hsplit : log ++ x :: log' = log ++ [x] ++ log' := by simp
      rw [hsplit] at hlog hcover
      have hinitial : calls ρ detect (log ++ [x]) <+: calls ρ detect (log ++ [x] ++ log') :=
        (List.prefix_append _ _).filterMap _
      obtain ⟨cov, hcov⟩ := Option.isSome_iff_exists.1 hcover
      obtain ⟨cov', hcov', -⟩ := coverageOf_initial hcov hinitial
      obtain ⟨next, hstep, hnext⟩ := hg.step_ok (w := w)
        (fun y hy => hlog y (List.mem_append_left _ hy)) hflight
        (hraised x List.mem_cons_self) (Option.isSome_iff_exists.2 ⟨cov', hcov'⟩)
      obtain ⟨st', hst'⟩ := ih (hg.step hstep).1 hlog hnext
        (fun y hy => hraised y (List.mem_cons_of_mem _ hy)) hcover
      exact ⟨st', by simpa [List.foldlM_cons, hstep, bind, Except.bind] using hst'⟩

end Loop

variable {detect lease} {log : List (ℕ × FetchEvent)} {st : LoopState ρ}

theorem run_eq_ok {w : Surroundings ρ} (h : run detect lease w log = .ok st) :
    Going detect lease log st ∧ ∀ x ∈ log, x.2 ≠ .raised := by
  unfold run at h
  cases hloop : log.foldlM (step detect lease w) (Fetch.start lease w.started, w.api) with
  | error error => simp [hloop, Except.bind] at h
  | ok ended =>
      obtain ⟨hg, hraised⟩ := (going_start w).foldlM hloop
      simp only [hloop, Except.bind, submit] at h
      split at h
      · cases h
      · split_ifs at h
        obtain rfl := Except.ok.inj h
        exact ⟨⟨hg.exit, hg.traces⟩, hraised⟩

/-- A fetch whose objects can be encoded and are accounted for comes to its submission. -/
theorem run_ok (w : Surroundings ρ) (hlog : Encodable detect log)
    (hraised : ∀ x ∈ log, x.2 ≠ .raised)
    (hcover : (coverageOf lease.referenceKey (calls ρ detect log)).isSome) :
    ∃ st, run detect lease w log = .ok st := by
  have hflight : ∀ batch, (Fetch.start lease w.started : Fetch _ _ _ ρ).inFlight = some batch →
      batch.payload.strings.all encodes := by
    intro batch h
    cases hcheckpoints : lease.checkpoints <;> simp [Fetch.start, Fetch.inFlight, hcheckpoints] at h
  obtain ⟨ended, hloop⟩ := (going_start w).foldlM_ok (w := w) hlog hflight hraised hcover
  have hg := ((going_start w).foldlM hloop).1
  obtain ⟨body, hbody⟩ : ∃ body, ended.1.report lease .exhausted = some body := ⟨_, rfl⟩
  have hstrings : body.strings.all encodes := by
    refine List.all_eq_true.2 fun text htext => ?_
    obtain ⟨k, hk, htext⟩ := List.mem_flatMap.1 htext
    rw [(Fetch.report_checkpointSequence hbody).2, hg.traces.candidates] at hk
    exact hlog.payload (List.mem_of_mem_drop (List.mem_filter.1 hk).1) text htext
  exact ⟨_, by simp only [run, hloop, Except.bind, submit, hbody, hstrings, if_true]; rfl⟩

end ShareTask

theorem ConnectorEvent.exists_cover {κ β χ ρ : Type} (e : ConnectorEvent κ β χ ρ)
    (cov : TaskCoverage β) (h : e.IsUnit → 1 ≤ cov.scanned) :
    ∃ cov', e.cover cov = some cov' ∧ cov'.scanned = cov.scanned + e.weight .scanned := by
  have hsome : (e.cover cov).isSome := by
    cases e with
    | yield u =>
        have hscanned : ¬ cov.scanned < 1 := not_lt.2 (h rfl)
        simp only [ConnectorEvent.cover, TaskCoverage.scannedButIncomplete, if_neg hscanned]
        split_ifs <;> rfl
    | _ => rfl
  obtain ⟨cov', hcov'⟩ := Option.isSome_iff_exists.1 hsome
  exact ⟨cov', hcov', congrFun (ConnectorEvent.totals_cover hcov') .scanned⟩

namespace FileshareConnector

variable {κ ρ : Type} {c : FileshareConnector} {s : Share} {d : UnitDetection κ}
  {cov : TaskCoverage ShareReference} {resumeAfter : Option PyStr} {events : List WalkEvent}

def coverBy (ρ : Type) (d : UnitDetection κ) (cov : TaskCoverage ShareReference)
    (log : List FetchEvent) : Option (TaskCoverage ShareReference) :=
  (log.filterMap (FetchEvent.toConnector (ρ := ρ) d)).foldlM (fun cov e => e.cover cov) cov

theorem coverBy_append (log log' : List FetchEvent) :
    coverBy ρ d cov (log ++ log') = (coverBy ρ d cov log).bind (coverBy ρ d · log') := by
  simp [coverBy, List.foldlM_append]

theorem coverBy_record (r : ShareRecord) (h : 0 ≤ cov.scanned) :
    ∃ cov', coverBy ρ d cov [.record r] = some cov' ∧ 0 ≤ cov'.scanned := by
  have hone : ∀ e : ConnectorEvent κ ShareReference ShareCheckpoint ρ, e.IsUnit = false →
      e.weight .scanned = 0 → (FetchEvent.record r).toConnector d = some e →
      ∃ cov', coverBy ρ d cov [.record r] = some cov' ∧ 0 ≤ cov'.scanned := by
    intro e hunit hweight he
    obtain ⟨cov', hcov', hscanned⟩ := e.exists_cover cov (by simp [hunit])
    exact ⟨cov', by simpa [coverBy, he] using hcov', by omega⟩
  cases r with
  | skipped reason ref =>
      exact hone _ rfl (by simp [ConnectorEvent.weight, skippedWeight, observedWeight, gapWeight])
        rfl
  | failed reason ref =>
      exact hone _ rfl (by simp [ConnectorEvent.weight, failedWeight, observedWeight, gapWeight])
        rfl
  | scopeGap reason ref =>
      exact hone _ rfl (by simp [ConnectorEvent.weight, scopeGapWeight, gapWeight]) rfl

/-- A unit comes right after its file was counted as scanned. -/
theorem coverBy_read (e : Entry) (h : 0 ≤ cov.scanned) :
    ∃ cov', coverBy ρ d cov (c.read s e) = some cov' ∧ 0 ≤ cov'.scanned := by
  rcases c.read_cases (s := s) e with ⟨r, -, hread⟩ | ⟨u, _, -, hread⟩
  · rw [hread]
    exact coverBy_record r h
  · let scanned : ConnectorEvent κ ShareReference ShareCheckpoint ρ := .scannedFor
    obtain ⟨unit, hunit⟩ : ∃ unit, (FetchEvent.yield u).toConnector d =
        some (.yield unit : ConnectorEvent κ ShareReference ShareCheckpoint ρ) := ⟨_, rfl⟩
    obtain ⟨cov₁, hcov₁, hscanned₁⟩ := scanned.exists_cover cov
      (by simp [scanned, ConnectorEvent.IsUnit])
    have hone : scanned.weight .scanned = 1 := by
      simp [scanned, ConnectorEvent.weight, scannedWeight, observedWeight]
    obtain ⟨cov₂, hcov₂, hscanned₂⟩ :=
      (.yield unit : ConnectorEvent κ ShareReference ShareCheckpoint ρ).exists_cover cov₁
        (fun _ => by omega)
    have htwo : -1 ≤ (.yield unit : ConnectorEvent κ ShareReference ShareCheckpoint ρ).weight
        .scanned := by
      simp only [ConnectorEvent.weight]
      split_ifs <;> simp [incompleteWeight, gapWeight]
    have hfirst : (FetchEvent.scannedFor e.key).toConnector d = some scanned := rfl
    refine ⟨cov₂, ?_, by omega⟩
    simp [hread, coverBy, hfirst, hunit, hcov₁, hcov₂]

theorem coverBy_serve (ev : WalkEvent) (h : 0 ≤ cov.scanned) :
    ∃ cov', coverBy ρ d cov (c.serve s resumeAfter ev) = some cov' ∧ 0 ≤ cov'.scanned := by
  cases ev with
  | record r => exact coverBy_record r h
  | raised => exact ⟨cov, rfl, h⟩
  | entry e =>
      simp only [serve]
      split_ifs
      · exact ⟨cov, rfl, h⟩
      · obtain ⟨cov', hcov', hscanned⟩ : ∃ cov', coverBy ρ d cov (c.read s e) = some cov' ∧
            0 ≤ cov'.scanned := coverBy_read e h
        exact ⟨cov', by rw [coverBy_append, hcov']; rfl, hscanned⟩

theorem coverBy_serveFrom (turn : ℕ) (events : List WalkEvent) (h : 0 ≤ cov.scanned) :
    ∃ cov', coverBy ρ d cov ((c.serveFrom s resumeAfter turn events).map Prod.snd) =
      some cov' ∧ 0 ≤ cov'.scanned := by
  induction events generalizing turn cov with
  | nil => exact ⟨cov, rfl, h⟩
  | cons ev events ih =>
      obtain ⟨cov₁, hcov₁, hscanned₁⟩ : ∃ cov', coverBy ρ d cov (c.serve s resumeAfter ev) =
          some cov' ∧ 0 ≤ cov'.scanned := coverBy_serve ev h
      obtain ⟨cov₂, hcov₂, hscanned₂⟩ := ih (turn + 1) hscanned₁
      refine ⟨cov₂, ?_, hscanned₂⟩
      simp only [serveFrom, List.map_append, List.map_map, Function.comp_def, List.map_id']
      rw [coverBy_append, hcov₁]
      exact hcov₂

end FileshareConnector

/-- What a fetch of one root comes to: its walk, or the root that is not there. -/
def Share.objects (s : Share) (rootName : PyStr) : List WalkEvent :=
  if s.tree.isDir s.root then s.order
  else [.record (.scopeGap ⟨_, scopeGap_missingResource⟩ (.root rootName))]

namespace FileshareConnector

variable {ρ : Type} (c : FileshareConnector) (s : Share) (rootName : PyStr)
  (detect : PyStr → TextDetection)
  (lease : Lease ShareCandidate ShareReference ShareCheckpoint) (w : Surroundings ρ)

/-- Whether it falls to this attempt to account for an object. -/
def handled (resumeAfter : Option PyStr) : WalkEvent → Bool
  | .record _ => true
  | .entry e => !covered resumeAfter e.key
  | .raised => false

def Readable (e : Entry) (text : PyStr) : Prop :=
  e.size ≤ s.config.maxFileBytes ∧ ∃ data, s.tree.readBytes e.path = .ok data ∧
    (c.readers.extractText c.limits data (pathName e.key)).outcome = .extracted ∧
    text = (c.readers.extractText c.limits data (pathName e.key)).text

/-- No object costs the task: it comes to its submission with everything accounted for, every
object has one disposition, every readable file is scanned, and every string that goes into
a reference, a fingerprint, a checkpoint or a payload can be encoded. -/
structure NoObjectCostsTheTask : Prop where
  submitted : ∃ st, ShareTask.run detect lease w (c.fetchLog s rootName lease.checkpoint) = .ok st ∧
    coverageOf lease.referenceKey
      (ShareTask.calls ρ detect (c.fetchLog s rootName lease.checkpoint)) =
        some st.1.outcome.coverage ∧
    st.1.candidates =
      candidatesOf (ShareTask.calls ρ detect (c.fetchLog s rootName lease.checkpoint))
  disposed : ∀ turn ev, (s.objects rootName)[turn]? = some ev →
    handled (resumeKey lease.checkpoint) ev →
      (c.fetchLog s rootName lease.checkpoint).countP
        (fun x => x.1 = turn && x.2.IsDisposition) = 1
  scanned : ∀ turn e text, (s.objects rootName)[turn]? = some (.entry e) →
    handled (resumeKey lease.checkpoint) (.entry e) → c.Readable s e text →
      ∃ u, (turn, .yield u) ∈ c.fetchLog s rootName lease.checkpoint ∧
        u.locator.resourceId = e.key ∧ u.text = text
  encodable : ShareTask.Encodable detect (c.fetchLog s rootName lease.checkpoint)

/-- The names that fall to this attempt, and what detection finds in the texts, have an
encoding, and the walk is not left by an `OSError`. -/
structure EncodableObjects (resumeFrom : Option ShareCheckpoint) : Prop where
  walked : .raised ∉ s.objects rootName
  recorded : ∀ r, .record r ∈ s.objects rootName → encodes r.ref.text
  named : ∀ e, .entry e ∈ s.objects rootName → handled (resumeKey resumeFrom) (.entry e) →
    encodes e.key
  found : ∀ e text, .entry e ∈ s.objects rootName → handled (resumeKey resumeFrom) (.entry e) →
    c.Readable s e text → ∀ found ∈ (detect text).secrets,
      encodes found.secret ∧ encodes found.ruleId ∧ encodes found.redactedSnippet

variable {c s rootName detect lease w} {resumeFrom : Option ShareCheckpoint} {e : Entry}
  {text : PyStr} {turn i : ℕ} {ev : WalkEvent} {events : List WalkEvent}
  {resumeAfter : Option PyStr}

theorem fetchLog_eq :
    c.fetchLog s rootName resumeFrom =
      c.serveFrom s (resumeKey resumeFrom) 0 (s.objects rootName) := by
  by_cases hdir : s.tree.isDir s.root
  · rw [fetchLog_of_isDir hdir, Share.objects, if_pos hdir]
  · rw [fetchLog, if_neg hdir, Share.objects, if_neg hdir]
    rfl

theorem mem_fetchLog {x : ℕ × FetchEvent} :
    x ∈ c.fetchLog s rootName resumeFrom ↔
      ∃ ev, (s.objects rootName)[x.1]? = some ev ∧ x.2 ∈ c.serve s (resumeKey resumeFrom) ev := by
  simp [fetchLog_eq, mem_serveFrom]

theorem countP_serveFrom (p : FetchEvent → Bool) (h : events[i]? = some ev) :
    (c.serveFrom s resumeAfter turn events).countP (fun x => x.1 = turn + i && p x.2) =
      (c.serve s resumeAfter ev).countP p := by
  induction events generalizing turn i with
  | nil => simp at h
  | cons ev' events ih =>
      rw [serveFrom, List.countP_append, List.countP_map]
      cases i with
      | zero =>
          obtain rfl : ev' = ev := by simpa using h
          have hrest : (c.serveFrom s resumeAfter (turn + 1) events).countP
              (fun x => x.1 = turn + 0 && p x.2) = 0 := by
            refine List.countP_eq_zero.2 fun x hx => ?_
            obtain ⟨j, -, -, hturn, -⟩ := mem_serveFrom.1 hx
            simp only [Bool.and_eq_true, decide_eq_true_eq]
            omega
          rw [hrest]
          simp [Function.comp_def]
      | succ i =>
          have hhead : (c.serve s resumeAfter ev').countP
              ((fun x : ℕ × FetchEvent => decide (x.1 = turn + (i + 1)) && p x.2) ∘ (turn, ·)) =
                0 := by
            refine List.countP_eq_zero.2 fun x _ => ?_
            simp
          rw [hhead, Nat.zero_add]
          have hindex : turn + (i + 1) = turn + 1 + i := by omega
          rw [hindex]
          exact ih (by simpa using h)

theorem countP_disposition_serve (h : handled resumeAfter ev) :
    (c.serve s resumeAfter ev).countP FetchEvent.IsDisposition = 1 := by
  cases ev with
  | raised => cases h
  | record r => rfl
  | entry e =>
      have hcovered : covered resumeAfter e.key = false := by simpa [handled] using h
      rw [serve, hcovered]
      rcases c.read_cases (s := s) e with ⟨r, -, hread⟩ | ⟨u, _, -, hread⟩ <;> simp [hread] <;> rfl

theorem read_of_readable (h : c.Readable s e text) :
    ∃ u, c.read s e = [.scannedFor e.key, .yield u] ∧ u.locator.resourceId = e.key ∧
      u.text = text := by
  obtain ⟨hsize, data, hdata, hextracted, rfl⟩ := h
  obtain ⟨u, hunit, hread⟩ := read_of_extracted hsize hdata hextracted
  exact ⟨u, hread, hunit.key, hunit.text⟩

theorem EncodableObjects.not_raised (h : c.EncodableObjects s rootName detect resumeFrom) :
    ∀ x ∈ c.fetchLog s rootName resumeFrom, x.2 ≠ .raised := by
  intro x hx hraised
  obtain ⟨ev, hev, hserved⟩ := mem_fetchLog.1 hx
  rw [hraised] at hserved
  cases ev with
  | record r => simp [serve] at hserved
  | raised => exact h.walked (List.mem_of_getElem? hev)
  | entry e =>
      simp only [serve] at hserved
      split_ifs at hserved
      · simp at hserved
      · rcases c.read_cases (s := s) e with ⟨r, -, hread⟩ | ⟨u, _, -, hread⟩ <;>
          simp [hread] at hserved

theorem EncodableObjects.carried (h : c.EncodableObjects s rootName detect resumeFrom) :
    ShareTask.Encodable detect (c.fetchLog s rootName resumeFrom) := by
  intro x hx
  obtain ⟨ev, hev, hserved⟩ := mem_fetchLog.1 hx
  have hmem := List.mem_of_getElem? hev
  cases ev with
  | record r =>
      have hx2 : x.2 = .record r := by simpa [serve] using hserved
      simpa [hx2, FetchEvent.carried] using h.recorded r hmem
  | raised => exact absurd hmem h.walked
  | entry e =>
      simp only [serve] at hserved
      split_ifs at hserved with hcovered
      · simp at hserved
      · have hhandled : handled (resumeKey resumeFrom) (.entry e) := by
          simpa [handled] using hcovered
        have hkey := h.named e hmem hhandled
        rcases List.mem_append.1 hserved with hserved | hcheckpoint
        · rcases c.read_cases (s := s) e with ⟨r, href, hread⟩ | ⟨u, data, hunit, hread⟩
          · have hx2 : x.2 = .record r := by simpa [hread] using hserved
            simpa [hx2, FetchEvent.carried, href, ShareReference.text] using hkey
          · have hx2 : x.2 = .scannedFor e.key ∨ x.2 = .yield u := by simpa [hread] using hserved
            rcases hx2 with hx2 | hx2
            · simpa [hx2, FetchEvent.carried] using hkey
            · have htitle : encodes u.title := by
                rw [hunit.title]
                exact encodes_pathName hkey
              have hfound := h.found e u.text hmem hhandled
                ⟨hunit.size, data, hunit.read, hunit.extracted, hunit.text⟩
              rw [← hunit.key] at hkey
              intro text htext
              rw [hx2, FetchEvent.carried] at htext
              rcases List.mem_cons.1 htext with rfl | htext
              · exact hkey
              · obtain ⟨k, hk, htext⟩ := List.mem_flatMap.1 htext
                obtain ⟨found, hmemfound, rfl⟩ := List.mem_map.1 hk
                obtain ⟨hsecret, hrule, hsnippet⟩ := hfound found hmemfound
                simp only [ShareCandidate.hashed, ShareCandidate.payload, List.mem_append,
                  List.mem_cons, List.not_mem_nil, or_false] at htext
                rcases htext with (rfl | rfl | rfl) | rfl | rfl | rfl | rfl <;> assumption
        · have hx2 : x.2 = .checkpointAt ⟨fileshareCheckpointVersion, some e.key⟩ := by
            simpa using hcheckpoint
          simpa [hx2, FetchEvent.carried] using hkey

theorem NoObjectCostsTheTask.encodableObjects
    (h : c.NoObjectCostsTheTask s rootName detect lease w) :
    c.EncodableObjects s rootName detect lease.checkpoint := by
  obtain ⟨st, hrun, -, -⟩ := h.submitted
  have hraised := (ShareTask.run_eq_ok hrun).2
  have hmem : ∀ {ev} event, ev ∈ s.objects rootName →
      event ∈ c.serve s (resumeKey lease.checkpoint) ev →
        ∃ turn, (turn, event) ∈ c.fetchLog s rootName lease.checkpoint := by
    intro ev event hev hevent
    obtain ⟨turn, hturn⟩ := List.mem_iff_getElem?.1 hev
    exact ⟨turn, mem_fetchLog.2 ⟨ev, hturn, hevent⟩⟩
  constructor
  · intro hwalk
    obtain ⟨turn, hx⟩ := hmem .raised hwalk (by simp [serve])
    exact hraised _ hx rfl
  · intro r hr
    obtain ⟨turn, hx⟩ := hmem (.record r) hr (by simp [serve])
    exact h.encodable _ hx _ (List.mem_singleton_self _)
  · intro e he hhandled
    have hcovered : covered (resumeKey lease.checkpoint) e.key = false := by
      simpa [handled] using hhandled
    obtain ⟨turn, hx⟩ := hmem (.checkpointAt ⟨fileshareCheckpointVersion, some e.key⟩) he
      (by simp [serve, hcovered])
    exact h.encodable _ hx _ (by simp [FetchEvent.carried])
  · intro e text he hhandled hreadable found hfound
    obtain ⟨turn, hturn⟩ := List.mem_iff_getElem?.1 he
    obtain ⟨u, hyield, -, rfl⟩ := h.scanned turn e text hturn hhandled hreadable
    have hcandidate : ⟨u, found⟩ ∈ (unitDetection detect).candidates u :=
      List.mem_map.2 ⟨found, hfound, rfl⟩
    let k : ShareCandidate := ⟨u, found⟩
    have hall : ∀ text ∈ k.hashed ++ k.payload, encodes text := fun text htext =>
      h.encodable _ hyield text
        (List.mem_cons_of_mem _ (List.mem_flatMap.2 ⟨k, hcandidate, htext⟩))
    exact ⟨hall found.secret (by simp [k, ShareCandidate.hashed]),
      hall found.ruleId (by simp [k, ShareCandidate.hashed]),
      hall found.redactedSnippet (by simp [k, ShareCandidate.payload])⟩

/-- No object costs the task exactly if the names of the objects and the secrets in the files
can be encoded and no `OSError` leaves the walk. -/
theorem noObjectCostsTheTask_iff (c : FileshareConnector) (s : Share) (rootName : PyStr)
    (detect : PyStr → TextDetection)
    (lease : Lease ShareCandidate ShareReference ShareCheckpoint) (w : Surroundings ρ) :
    c.NoObjectCostsTheTask s rootName detect lease w ↔
      c.EncodableObjects s rootName detect lease.checkpoint := by
  refine ⟨NoObjectCostsTheTask.encodableObjects, fun h => ⟨?_, ?_, ?_, h.carried⟩⟩
  · obtain ⟨cov, hcov, -⟩ : ∃ cov, coverBy ρ (unitDetection detect)
        { phase := .fetch, referenceKey := some lease.referenceKey }
        ((c.serveFrom s (resumeKey lease.checkpoint) 0 (s.objects rootName)).map Prod.snd) =
          some cov ∧ 0 ≤ cov.scanned := coverBy_serveFrom 0 _ le_rfl
    have hcover : coverageOf lease.referenceKey
        (ShareTask.calls ρ detect (c.fetchLog s rootName lease.checkpoint)) = some cov := by
      rw [fetchLog_eq, coverageOf, ← hcov]
      simp [coverBy, ShareTask.calls, history, List.filterMap_map]
    obtain ⟨st, hst⟩ := ShareTask.run_ok w h.carried h.not_raised
      (Option.isSome_iff_exists.2 ⟨_, hcover⟩)
    have htraces := (ShareTask.run_eq_ok hst).1.traces
    exact ⟨st, hst, htraces.coverage, htraces.candidates⟩
  · intro turn ev hev hhandled
    have hcount : (c.serveFrom s (resumeKey lease.checkpoint) 0 (s.objects rootName)).countP
        (fun x => x.1 = 0 + turn && x.2.IsDisposition) = _ := countP_serveFrom _ hev
    rw [Nat.zero_add] at hcount
    rw [fetchLog_eq, hcount]
    exact countP_disposition_serve hhandled
  · intro turn e text he hhandled hreadable
    have hcovered : covered (resumeKey lease.checkpoint) e.key = false := by
      simpa [handled] using hhandled
    obtain ⟨u, hread, hkey, htext⟩ := read_of_readable hreadable
    refine ⟨u, mem_fetchLog.2 ⟨.entry e, he, ?_⟩, hkey, htext⟩
    simp [serve, hcovered, hread]

/-- A picture whose name is not valid UTF-8: its first byte is a lone surrogate. -/
def strayPng : PlainEntry where
  name := ⟨0xdcff :: pyStr ".png", by decide⟩
  content := .ok [0x89]

def strayShare : Share := .flat shareConfig [shareName] [strayPng, aTxt] (by decide)

def shareLease : Lease ShareCandidate ShareReference ShareCheckpoint where
  engine := 1
  idempotencyKey := ⟨1, 1⟩
  rulepackVersion := "1"
  checkpoint := none
  checkpointSequence := 0
  referenceKey := zeroDigest
  suppresses _ := false
  taskReference := .root []
  checkpoints := true

def calm : Surroundings Unit where
  tick _ := {}
  api := { db := { scan := {}, task := { id := 1, kind := .fetch } } }
  not_cancelled _ := rfl

/-- One picture that is skipped for its type costs the task that had read `a.txt`. -/
theorem strayShare_costs_the_task :
    ShareTask.run (fun _ => { secrets := [] }) shareLease calm
        (asciiConnector.fetchLog strayShare [] none) = .error .unicodeEncodeError ∧
      ¬ asciiConnector.NoObjectCostsTheTask strayShare [] (fun _ => { secrets := [] }) shareLease
        calm := by
  have hrun : ShareTask.run (fun _ => { secrets := [] }) shareLease calm
      (asciiConnector.fetchLog strayShare [] none) = .error .unicodeEncodeError := by
    rw [fetchLog_of_isDir rfl]
    rfl
  refine ⟨hrun, fun h => ?_⟩
  obtain ⟨st, hst, -⟩ := h.submitted
  cases hrun.symm.trans hst

end FileshareConnector

end IcebergSST
