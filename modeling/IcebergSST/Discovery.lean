import IcebergSST.Reconcile
import IcebergSST.Submission
import IcebergSST.Text

/-!
# Discovery and the scopes it accounts for

Discovery turns a source into task specs and reports how many of the configured scopes
it enumerated. Three pieces of code count scopes: the loop that consumes the specs,
the gap recorded when discovery fails, and the two equations the API checks. The API
settles the task exactly when no two specs name one scope, and the specs, with the
configured scopes missing after a failure, are as many as the scopes configured.
-/

namespace IcebergSST

variable {κ χ ρ : Type}

/-- What a scope gap of discovery refers to: a configured value, or the task. -/
inductive DiscoveryReference
  | scope (value : String)
  | task (sourceId : ℕ)
  deriving DecidableEq, Repr

/-- What discovery reads of its lease and of the connector. -/
structure DiscoveryLease where
  sourceId : ℕ
  idempotencyKey : IdempotencyKey
  rulepackVersion : String
  /-- The configured values under the connector's scope key. -/
  scopes : List String
  /-- The parameter of a spec that names its scope. -/
  scopeParam : String
  referenceKey : Option (CoverageObjectKind → DiscoveryReference → GapReference)

def TaskSpec.param (spec : TaskSpec) (name : String) : String :=
  (spec.params.lookup name).getD ""

section Engine
variable (casefold : String → String) (lease : DiscoveryLease)

/-- How many scopes the operator configured, up to case and surrounding space. -/
def configuredScopes : ℕ :=
  (((lease.scopes.map strip).filter (fun s => s ≠ "")).map casefold).toFinset.card

def scopeOf (spec : TaskSpec) : String := casefold (strip (spec.param lease.scopeParam))

structure Discovered where
  coverage : TaskCoverage DiscoveryReference
  taskSpecs : List TaskSpec := []
  seen : List String := []

def discoverStep (d : Discovered) (spec : TaskSpec) : Discovered :=
  let scope := scopeOf casefold lease spec
  let d := { d with taskSpecs := d.taskSpecs ++ [spec] }
  if scope ≠ "" ∧ scope ∈ d.seen then d
  else { d with seen := scope :: d.seen, coverage := d.coverage.scopeFound }

def discover (specs : List TaskSpec) : Discovered :=
  specs.foldl (discoverStep casefold lease)
    { coverage :=
        { phase := .discovery
          referenceKey := lease.referenceKey
          scopeRequested :=
            if configuredScopes casefold lease = 0 then none
            else some (configuredScopes casefold lease) } }

/-- `d[key] = value`: a key keeps its place and takes the new value. -/
def dictSet (d : List (String × String)) (key value : String) : List (String × String) :=
  if d.any (fun e => e.1 = key) then d.map (fun e => if e.1 = key then (key, value) else e)
  else d ++ [(key, value)]

/-- The configured values no spec was yielded for; here nothing is stripped. -/
def missingScopes (specs : List TaskSpec) : List String :=
  let wanted := lease.scopes.foldl (fun d value => dictSet d (casefold value) value) []
  let found := specs.map (fun spec => casefold (spec.param lease.scopeParam))
  (wanted.filter (fun e => e.1 ∉ found)).map Prod.snd

/-- `_record_task_gap` for a discovery task. -/
def recordTaskGap (coverage : Option (TaskCoverage DiscoveryReference)) (specs : List TaskSpec)
    (reason : AllowedReason .scopeGap) : TaskCoverage DiscoveryReference :=
  let coverage := coverage.getD { phase := .discovery, referenceKey := lease.referenceKey }
  let task := some (DiscoveryReference.task lease.sourceId)
  if coverage.scopeRequested.isSome then
    let missing := missingScopes casefold lease specs
    if missing ≠ [] then
      missing.foldl (fun c value => c.scopeGap reason (some (.scope value))) coverage
    else { coverage with scopeRequested := none }.scopeGap reason task
  else coverage.scopeGap reason task

/-- The submission after `run_task` on a discovery lease, `yielded` being the specs the
connector yielded, or `none` when it could not even be asked. -/
def discoverySubmission (yielded : Option (List TaskSpec)) (exit : Exit) :
    Option (ResultsSubmission κ ρ) :=
  if exit = .cancelled then none
  else
    let discovered := yielded.map (discover casefold lease)
    let taskSpecs := (discovered.map Discovered.taskSpecs).getD []
    let coverage :=
      match exit.gap with
      | none => discovered.map Discovered.coverage
      | some (reason, _) =>
          some (recordTaskGap casefold lease (discovered.map Discovered.coverage) taskSpecs reason)
    some
      { idempotencyKey := lease.idempotencyKey
        status := if exit.gap.isSome then .failed else .completed
        error := exit.gap.map Prod.snd
        taskSpecs
        rulepackVersion := some lease.rulepackVersion
        counts := Pi.single .specsDiscovered (taskSpecs.length : ℤ)
        coverage := coverage.map TaskCoverage.asPayload }

end Engine

/-- How many of these scopes the loop counts, some having been seen. -/
def countNew (seen : List String) : List String → ℕ
  | [] => 0
  | s :: ss => if s ≠ "" ∧ s ∈ seen then countNew seen ss else countNew (s :: seen) ss + 1

theorem countNew_le (seen ss : List String) : countNew seen ss ≤ ss.length := by
  induction ss generalizing seen with
  | nil => exact le_rfl
  | cons s ss ih =>
      have h₁ := ih seen
      have h₂ := ih (s :: seen)
      rw [countNew, List.length_cons]
      split_ifs <;> omega

/-- Every scope counts exactly when no nonblank one was seen or is repeated. -/
theorem countNew_eq_length_iff (seen ss : List String) : countNew seen ss = ss.length ↔
    (ss.filter (fun s => s ≠ "")).Nodup ∧ ∀ s ∈ ss, s ≠ "" → s ∉ seen := by
  induction ss generalizing seen with
  | nil => simp [countNew]
  | cons s ss ih =>
      have hle := countNew_le seen ss
      rw [countNew, List.length_cons]
      by_cases hs : s ≠ "" ∧ s ∈ seen
      · rw [if_pos hs]
        refine iff_of_false (by omega) ?_
        rintro ⟨_, hnew⟩
        exact hnew s List.mem_cons_self hs.1 hs.2
      · rw [if_neg hs, Nat.add_right_cancel_iff, ih]
        by_cases hblank : s = ""
        · subst hblank
          simp only [List.filter_cons, List.mem_cons, not_or, ne_eq, not_true_eq_false,
            decide_false, Bool.false_eq_true, if_false, forall_eq_or_imp, IsEmpty.forall_iff,
            true_and]
          constructor
          · exact fun h => ⟨h.1, fun a ha hne => (h.2 a ha hne).2⟩
          · exact fun h => ⟨h.1, fun a ha hne => ⟨hne, h.2 a ha hne⟩⟩
        · have hseen : s ∉ seen := fun hmem => hs ⟨hblank, hmem⟩
          simp only [List.filter_cons, ne_eq, hblank, not_false_eq_true, decide_true, if_true,
            List.nodup_cons, List.mem_filter, List.mem_cons, not_or, forall_eq_or_imp, hseen,
            true_and, and_true, true_imp_iff]
          constructor
          · rintro ⟨hnd, hnew⟩
            exact ⟨⟨fun hmem => (hnew s hmem hblank).1 rfl, hnd⟩, fun a ha hne => (hnew a ha hne).2⟩
          · rintro ⟨⟨hmem, hnd⟩, hnew⟩
            refine ⟨hnd, fun a ha hne => ⟨?_, hnew a ha hne⟩⟩
            rintro rfl
            exact hmem ha

section Account
variable (casefold : String → String) (lease : DiscoveryLease)

theorem foldl_discoverStep (specs : List TaskSpec) (d : Discovered) :
    (specs.foldl (discoverStep casefold lease) d).taskSpecs = d.taskSpecs ++ specs ∧
      (specs.foldl (discoverStep casefold lease) d).coverage =
        { d.coverage with
          scopeDiscovered := d.coverage.scopeDiscovered +
            countNew d.seen (specs.map (scopeOf casefold lease)) } := by
  induction specs generalizing d with
  | nil => simp [countNew]
  | cons spec specs ih =>
      obtain ⟨hspecs, hcoverage⟩ := ih (discoverStep casefold lease d spec)
      rw [List.foldl_cons, hspecs, hcoverage, List.map_cons, countNew]
      unfold discoverStep
      dsimp only
      split_ifs
      · exact ⟨List.append_assoc _ _ _, rfl⟩
      · refine ⟨List.append_assoc _ _ _, ?_⟩
        simp only [TaskCoverage.scopeFound]
        congr 1
        push_cast
        ring

theorem discover_taskSpecs (specs : List TaskSpec) :
    (discover casefold lease specs).taskSpecs = specs :=
  (foldl_discoverStep casefold lease specs _).1

theorem discover_coverage (specs : List TaskSpec) :
    (discover casefold lease specs).coverage =
      { phase := .discovery
        referenceKey := lease.referenceKey
        scopeRequested :=
          if configuredScopes casefold lease = 0 then none
          else some (configuredScopes casefold lease)
        scopeDiscovered := countNew [] (specs.map (scopeOf casefold lease)) } := by
  rw [discover, (foldl_discoverStep casefold lease specs _).2]
  simp only [zero_add]

theorem foldl_scopeGap {β : Type} (refs : List β) (reason : AllowedReason .scopeGap)
    {c : TaskCoverage β} (hs : c.Sound) :
    let c' := refs.foldl (fun c r => c.scopeGap reason (some r)) c
    c'.Sound ∧ c'.scopeGaps = c.scopeGaps + refs.length ∧
      c'.scopeDiscovered = c.scopeDiscovered ∧ c'.scopeRequested = c.scopeRequested ∧
      c'.phase = c.phase ∧ c'.requested = c.requested ∧ c'.discovered = c.discovered ∧
      c'.scanned = c.scanned ∧ c'.skipped = c.skipped ∧ c'.failed = c.failed := by
  induction refs generalizing c with
  | nil => simp [hs]
  | cons r refs ih =>
      have hone : (c.scopeGap reason (some r)).scopeGaps = c.scopeGaps + 1 ∧
          (c.scopeGap reason (some r)).scopeDiscovered = c.scopeDiscovered ∧
          (c.scopeGap reason (some r)).scopeRequested = c.scopeRequested ∧
          (c.scopeGap reason (some r)).phase = c.phase ∧
          (c.scopeGap reason (some r)).requested = c.requested ∧
          (c.scopeGap reason (some r)).discovered = c.discovered ∧
          (c.scopeGap reason (some r)).scanned = c.scanned ∧
          (c.scopeGap reason (some r)).skipped = c.skipped ∧
          (c.scopeGap reason (some r)).failed = c.failed := by
        unfold TaskCoverage.scopeGap
        rcases TaskCoverage.gap_cases { c with scopeGaps := c.scopeGaps + 1 }
          (CoverageDisposition.scopeGap, reason.1) .scope (some r) with ⟨digest, _, hg⟩ | hg <;>
          rw [hg] <;> exact ⟨rfl, rfl, rfl, rfl, rfl, rfl, rfl, rfl, rfl⟩
      obtain ⟨h₁, h₂, h₃, h₄, h₅, h₆, h₇, h₈, h₉⟩ := hone
      have hrest := ih (hs.scopeGap_sound reason (some r))
      rw [h₁, h₂, h₃, h₄, h₅, h₆, h₇, h₈, h₉] at hrest
      obtain ⟨hsound, hgaps, hframe⟩ := hrest
      refine ⟨hsound, ?_, hframe⟩
      rw [List.foldl_cons, hgaps, List.length_cons]
      push_cast
      ring

end Account

/-- A discovery task one engine holds, with nothing reported yet. -/
structure Db.AwaitsDiscovery (db : Db χ ρ) (engine : EngineId) : Prop where
  kind : db.task.kind = .discovery
  engine : db.task.engineId = some engine
  leased : db.task.status.Leased
  unreported : db.task.resultKey = none
  sequence : db.task.checkpointSequence = 0

/-- The task ends with this submission, and its specs become fetch tasks. -/
def Settles (db : Db χ ρ) (engine : EngineId) (body : ResultsSubmission κ ρ) : Prop :=
  (submitResults db engine body).1.task.status.Terminal = true ∧
    (submitResults db engine body).2 = .ok { fetchTasksCreated := body.taskSpecs.length }

/-- A discovery report settles its task exactly when its coverage passes the validators
and counts as many scopes as there are specs. -/
theorem settles_iff {db : Db χ ρ} {engine : EngineId} (hdb : db.AwaitsDiscovery engine)
    {body : ResultsSubmission κ ρ} (hstatus : body.status = .completed ∨ body.status = .failed)
    (hfindings : body.findings = []) (hcounts : ∀ k, 0 ≤ body.counts k)
    (hsequence : body.checkpointSequence = 0) (hphase : ∀ c ∈ body.coverage, c.phase = .discovery) :
    Settles db engine body ↔
      ∀ c ∈ body.coverage, c.Valid ∧ c.scope.discovered = body.taskSpecs.length := by
  have hrefusal : resultsRefusal db engine body =
      if body.coverage.any (fun c => c.scope.discovered ≠ (body.taskSpecs.length : ℤ)) then
        some .unprocessable else none := by
    have hany : body.coverage.any (fun c => c.phase ≠ .discovery) = false := by
      rw [Option.any_eq_false]
      intro c hc
      simpa using hphase c hc
    unfold resultsRefusal
    rw [hdb.kind, hdb.engine, hany, hfindings, hsequence, hdb.sequence]
    rcases hstatus with hs | hs <;> simp [hs]
  have hclaim : claimResult db.task engine body.idempotencyKey =
      some { db.task with resultKey := some body.idempotencyKey } := by
    rw [claimResult, if_pos ⟨hdb.engine, hdb.leased, hdb.unreported⟩]
  by_cases hall : ∀ c ∈ body.coverage, c.Valid ∧ c.scope.discovered = body.taskSpecs.length
  · refine iff_of_true ?_ hall
    have hvalid : body.Valid := ⟨hcounts, fun c hc => (hall c hc).1, by omega⟩
    have hagree : body.coverage.any
        (fun c => c.scope.discovered ≠ (body.taskSpecs.length : ℤ)) = false := by
      rw [Option.any_eq_false]
      intro c hc
      simpa using (hall c hc).2
    have hout := effectiveOutcome_ne_cancelled body.counts
      (reportOf body.coverage hvalid.coverage) hstatus
    have hmerged : ∀ task : ScanTask χ ρ, mergedCoverage task body.checkpointSequence
        (reportOf body.coverage hvalid.coverage) =
        some (reportOf body.coverage hvalid.coverage) := by
      intro task
      unfold mergedCoverage
      rw [if_neg (by omega)]
    unfold Settles submitResults
    simp only [dif_pos hvalid, hrefusal, hagree, Bool.false_eq_true, if_false, hclaim, hmerged,
      hdb.kind, if_true]
    exact ⟨hout.1, trivial⟩
  · refine iff_of_false ?_ hall
    rintro ⟨_, hok⟩
    unfold submitResults at hok
    by_cases hvalid : body.Valid
    · have hagree : body.coverage.any
          (fun c => c.scope.discovered ≠ (body.taskSpecs.length : ℤ)) = true := by
        push Not at hall
        obtain ⟨c, hc, hne⟩ := hall
        rw [Option.any_eq_true]
        exact ⟨c, hc, by simpa using hne (hvalid.coverage c hc)⟩
      simp only [dif_pos hvalid, hrefusal, hagree, if_true] at hok
      cases hok
    · simp only [dif_neg hvalid] at hok
      cases hok

/-- No two specs name one scope; and unless nothing was configured, the specs, with the
configured scopes that are missing after a failure, are as many as were configured. -/
def ScopesReconcile (casefold : String → String) (lease : DiscoveryLease) (specs : List TaskSpec)
    (exit : Exit) : Prop :=
  ((specs.map (scopeOf casefold lease)).filter (fun s => s ≠ "")).Nodup ∧
    (configuredScopes casefold lease = 0 ∨
      match exit.gap with
      | none => configuredScopes casefold lease = specs.length
      | some _ =>
          missingScopes casefold lease specs = [] ∨
            configuredScopes casefold lease =
              specs.length + (missingScopes casefold lease specs).length)

section Settle
variable (casefold : String → String) (lease : DiscoveryLease)

theorem discover_sound (specs : List TaskSpec) :
    (discover casefold lease specs).coverage.Sound := by
  rw [discover_coverage]
  have hstart := TaskCoverage.sound_start .discovery lease.referenceKey
    (if configuredScopes casefold lease = 0 then none
      else some (configuredScopes casefold lease : ℤ))
  exact { hstart with scopes := ⟨Int.natCast_nonneg _, le_rfl⟩ }

/-- A sound discovery account passes the API's checks exactly when its scope equation
balances and it counts every spec. -/
theorem checks_iff {c : TaskCoverage DiscoveryReference} (hs : c.Sound)
    (hobjects : c.requested = 0 ∧ c.discovered = 0 ∧ c.scanned = 0 ∧ c.skipped = 0 ∧ c.failed = 0)
    (n : ℕ) :
    (c.asPayload.Valid ∧ c.asPayload.scope.discovered = n) ↔
      (c.scopeRequested = none ∨ c.scopeRequested = some (c.scopeDiscovered + c.scopeGaps)) ∧
        c.scopeDiscovered = n := by
  rw [hs.valid_iff]
  exact and_congr_left' (and_iff_left (fun _ => hobjects))

theorem recordTaskGap_checks_iff (specs : List TaskSpec) (reason : AllowedReason .scopeGap) :
    ((recordTaskGap casefold lease (some (discover casefold lease specs).coverage) specs
        reason).asPayload.Valid ∧
      (recordTaskGap casefold lease (some (discover casefold lease specs).coverage) specs
        reason).asPayload.scope.discovered = specs.length) ↔
    countNew [] (specs.map (scopeOf casefold lease)) = specs.length ∧
      (configuredScopes casefold lease = 0 ∨ missingScopes casefold lease specs = [] ∨
        configuredScopes casefold lease =
          specs.length + (missingScopes casefold lease specs).length) := by
  have hsound := discover_sound casefold lease specs
  have hcoverage := discover_coverage casefold lease specs
  -- the account after some gaps, and what its checks come to
  have hafter : ∀ (c : TaskCoverage DiscoveryReference) (refs : List DiscoveryReference),
      c.Sound → c.requested = 0 ∧ c.discovered = 0 ∧ c.scanned = 0 ∧ c.skipped = 0 ∧ c.failed = 0 →
      let c' := refs.foldl (fun c r => c.scopeGap reason (some r)) c
      (c'.asPayload.Valid ∧ c'.asPayload.scope.discovered = specs.length) ↔
        (c.scopeRequested = none ∨
          c.scopeRequested = some (c.scopeDiscovered + (c.scopeGaps + refs.length))) ∧
          c.scopeDiscovered = specs.length := by
    intro c refs hs hobjects
    obtain ⟨hs', hgaps, hdisc, hreq, _, h₁, h₂, h₃, h₄, h₅⟩ := foldl_scopeGap refs reason hs
    have hchecks := checks_iff hs' ⟨h₁.trans hobjects.1, h₂.trans hobjects.2.1,
      h₃.trans hobjects.2.2.1, h₄.trans hobjects.2.2.2.1, h₅.trans hobjects.2.2.2.2⟩ specs.length
    rw [hgaps, hdisc, hreq] at hchecks
    exact hchecks
  unfold recordTaskGap
  rw [Option.getD_some]
  by_cases hn : configuredScopes casefold lease = 0
  · have hnone : (discover casefold lease specs).coverage.scopeRequested = none := by
      rw [hcoverage]
      exact if_pos hn
    rw [if_neg (by rw [hnone]; simp)]
    have hone := hafter _ [.task lease.sourceId] hsound (by rw [hcoverage]; simp)
    refine hone.trans ?_
    rw [hnone, hcoverage]
    simp [hn]
  · have hsome : (discover casefold lease specs).coverage.scopeRequested =
        some (configuredScopes casefold lease : ℤ) := by
      rw [hcoverage]
      exact if_neg hn
    rw [if_pos (by rw [hsome]; rfl)]
    by_cases hmissing : missingScopes casefold lease specs = []
    · rw [if_neg (by simpa using hmissing)]
      have hone := hafter { (discover casefold lease specs).coverage with scopeRequested := none }
        [.task lease.sourceId] { hsound with } (by rw [hcoverage]; simp)
      refine hone.trans ?_
      rw [hcoverage]
      simp [hmissing]
    · rw [if_pos hmissing, ← List.foldl_map (f := DiscoveryReference.scope)
        (g := fun (c : TaskCoverage DiscoveryReference) r => c.scopeGap reason (some r))]
      refine (hafter _ _ hsound (by rw [hcoverage]; simp)).trans ?_
      rw [hsome, hcoverage]
      simp only [reduceCtorEq, false_or, Option.some.injEq, zero_add, List.length_map, hn, hmissing]
      constructor
      · rintro ⟨heq, hcount⟩
        omega
      · rintro ⟨hcount, heq⟩
        omega

theorem recordTaskGap_phase {coverage : Option (TaskCoverage DiscoveryReference)}
    (hc : ∀ c ∈ coverage, c.Sound ∧ c.phase = .discovery) (specs : List TaskSpec)
    (reason : AllowedReason .scopeGap) :
    (recordTaskGap casefold lease coverage specs reason).phase = .discovery := by
  have hstart : (coverage.getD { phase := .discovery, referenceKey := lease.referenceKey }).Sound ∧
      (coverage.getD { phase := .discovery, referenceKey := lease.referenceKey }).phase =
        .discovery := by
    cases coverage with
    | none => exact ⟨TaskCoverage.sound_start .discovery lease.referenceKey none, rfl⟩
    | some c => exact hc c rfl
  obtain ⟨hs, hphase⟩ := hstart
  unfold recordTaskGap
  dsimp only
  split_ifs
  · rw [← List.foldl_map (f := DiscoveryReference.scope)
      (g := fun (c : TaskCoverage DiscoveryReference) r => c.scopeGap reason (some r))]
    exact (foldl_scopeGap _ reason hs).2.2.2.2.1.trans hphase
  · exact (foldl_scopeGap [DiscoveryReference.task lease.sourceId] reason
      (c := { coverage.getD { phase := .discovery, referenceKey := lease.referenceKey } with
        scopeRequested := none }) { hs with }).2.2.2.2.1.trans hphase
  · exact (foldl_scopeGap [DiscoveryReference.task lease.sourceId] reason hs).2.2.2.2.1.trans hphase

theorem recordTaskGap_unasked (reason : AllowedReason .scopeGap) :
    (recordTaskGap casefold lease none [] reason).asPayload.Valid ∧
      (recordTaskGap casefold lease none [] reason).asPayload.scope.discovered = (0 : ℕ) := by
  have hstart := TaskCoverage.sound_start .discovery lease.referenceKey none
  obtain ⟨hs, _, hdisc, hreq, _, h₁, h₂, h₃, h₄, h₅⟩ :=
    foldl_scopeGap [DiscoveryReference.task lease.sourceId] reason hstart
  exact (checks_iff hs ⟨h₁, h₂, h₃, h₄, h₅⟩ 0).2 ⟨Or.inl hreq, hdisc⟩

/-- The submission an engine composes for a discovery task settles it exactly when the
scopes of the specs reconcile with the configured ones. -/
theorem discovery_settles_iff {db : Db χ ρ} {engine : EngineId} (hdb : db.AwaitsDiscovery engine)
    {yielded : Option (List TaskSpec)} {exit : Exit} {body : ResultsSubmission κ ρ}
    (hbody : discoverySubmission casefold lease yielded exit = some body) :
    Settles db engine body ↔ ∀ specs ∈ yielded, ScopesReconcile casefold lease specs exit := by
  have hcancelled : exit ≠ .cancelled := by
    rintro rfl
    cases hbody
  unfold discoverySubmission at hbody
  rw [if_neg hcancelled] at hbody
  obtain rfl := Option.some.inj hbody
  have hcounts : ∀ n : ℕ, ∀ k, 0 ≤ (Pi.single .specsDiscovered (n : ℤ) : Counts) k := by
    intro n
    have hnn : (0 : Counts) ≤ Pi.single .specsDiscovered (n : ℤ) :=
      Pi.single_nonneg.2 (Int.natCast_nonneg n)
    exact hnn
  cases hgap : exit.gap with
  | none =>
      rw [settles_iff hdb (Or.inl rfl) rfl (hcounts _) rfl]
      · cases yielded with
        | none =>
            constructor
            · intro _ specs hspecs
              exact absurd hspecs (Option.not_mem_none _)
            · intro _ c hc
              exact absurd hc (Option.not_mem_none _)
        | some specs =>
            have hsound := discover_sound casefold lease specs
            have hchecks := checks_iff hsound (by rw [discover_coverage]; simp) specs.length
            have hcount := countNew_eq_length_iff [] (specs.map (scopeOf casefold lease))
            rw [List.length_map] at hcount
            simp only [Option.map_some, Option.getD_some, Option.mem_def, Option.some.injEq,
              forall_eq', discover_taskSpecs, ScopesReconcile, hgap]
            rw [hchecks, discover_coverage]
            simp only [add_zero, Nat.cast_inj, hcount, List.not_mem_nil, not_false_eq_true,
              implies_true, and_true]
            rw [and_comm]
            refine and_congr_right fun hnodup => ?_
            have hlen := hcount.2 ⟨hnodup, by simp⟩
            by_cases hn : configuredScopes casefold lease = 0
            · simp [hn]
            · simp [hn, hlen]
      · intro c hc
        cases yielded with
        | none => cases hc
        | some specs =>
            obtain rfl := Option.some.inj hc
            rw [discover_coverage]
            rfl
  | some gap =>
      obtain ⟨reason, error⟩ := gap
      rw [settles_iff hdb (Or.inr rfl) rfl (hcounts _) rfl]
      · cases yielded with
        | none =>
            refine iff_of_true (fun c hc => ?_) nofun
            obtain rfl := Option.some.inj hc
            exact recordTaskGap_unasked casefold lease reason
        | some specs =>
            have hchecks := recordTaskGap_checks_iff casefold lease specs reason
            have hcount := countNew_eq_length_iff [] (specs.map (scopeOf casefold lease))
            rw [List.length_map] at hcount
            simp only [Option.map_some, Option.getD_some, Option.mem_def, Option.some.injEq,
              forall_eq', discover_taskSpecs, ScopesReconcile, hgap]
            rw [hchecks, hcount]
            simp only [List.not_mem_nil, not_false_eq_true, implies_true, and_true]
      · intro c hc
        obtain rfl := Option.some.inj hc
        apply recordTaskGap_phase casefold lease
        intro c hc
        obtain ⟨d, hd, rfl⟩ := Option.map_eq_some_iff.1 hc
        obtain ⟨specs, _, rfl⟩ := Option.map_eq_some_iff.1 hd
        exact ⟨discover_sound casefold lease specs, by rw [discover_coverage]⟩

end Settle

instance (casefold : String → String) (lease : DiscoveryLease) (specs : List TaskSpec)
    (exit : Exit) : Decidable (ScopesReconcile casefold lease specs exit) :=
  have : Decidable (match exit.gap with
      | none => configuredScopes casefold lease = specs.length
      | some _ =>
          missingScopes casefold lease specs = [] ∨
            configuredScopes casefold lease =
              specs.length + (missingScopes casefold lease specs).length) :=
    match exit.gap with
    | none => inferInstanceAs (Decidable (_ = _))
    | some _ => inferInstanceAs (Decidable (_ ∨ _))
  inferInstanceAs (Decidable (_ ∧ (_ ∨ _)))

def sampleDiscovery : DiscoveryLease where
  sourceId := 0
  idempotencyKey := ⟨0, 1⟩
  rulepackVersion := "1"
  scopes := [" ops ", "WEB"]
  scopeParam := "project_key"
  referenceKey := none

def projectSpec (key window : String) : TaskSpec where
  label := key ++ " issues " ++ window
  params := [("project_key", key), ("window", window)]

def leasedDiscovery : Db ℕ Unit where
  scan := {}
  task := { id := 0, kind := .discovery, status := .leased, engineId := some 1 }

theorem discovery_settles_one_window_each : ∃ body : ResultsSubmission ℕ Unit,
    discoverySubmission String.toLower sampleDiscovery
      (some [projectSpec "OPS" "start…end", projectSpec "WEB" "start…end"]) .exhausted = some body ∧
      Settles leasedDiscovery 1 body := by
  have hsome : (discoverySubmission String.toLower sampleDiscovery
      (some [projectSpec "OPS" "start…end", projectSpec "WEB" "start…end"]) .exhausted :
        Option (ResultsSubmission ℕ Unit)).isSome := by decide +kernel
  obtain ⟨body, hbody⟩ := Option.isSome_iff_exists.1 hsome
  refine ⟨body, hbody, (discovery_settles_iff String.toLower sampleDiscovery
    ⟨rfl, rfl, rfl, rfl, rfl⟩ hbody).2 ?_⟩
  intro specs hspecs
  obtain rfl := Option.some.inj hspecs
  decide +kernel

/-- A project that is split into two windows is refused. -/
theorem discovery_of_two_windows_refused : ∃ body : ResultsSubmission ℕ Unit,
    discoverySubmission String.toLower sampleDiscovery
      (some [projectSpec "OPS" "start…2024", projectSpec "OPS" "2024…end",
        projectSpec "WEB" "start…end"]) .exhausted = some body ∧
      ¬ Settles leasedDiscovery 1 body := by
  refine ⟨_, rfl, fun hsettles => ?_⟩
  have hterminal := hsettles.1
  revert hterminal
  decide +kernel

end IcebergSST
