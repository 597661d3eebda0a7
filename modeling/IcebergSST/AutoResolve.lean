import IcebergSST.Findings

/-!
# Auto-resolution and the suppressions engines were given

One full scan of a source, with its fetch tasks, next to everything else that writes the
finding table: suppressions made, deleted and lapsing, and analysts at work. A lease
carries the suppressions that are live at that moment, and the engine holds back what
they cover. Of what it sends, ingest drops what scores below the threshold of the API; that
of the engine may be lower. Once every task is done, reconciliation selects what this scan
did not see and then resolves row by row, each update checking no more than that the row is
open.

What was detected, what ingest took and which rows were resolved is history.
-/

namespace IcebergSST

structure EngineAttempt where
  rules : List SuppressionRule
  found : List FindingPayload := []
  deriving DecidableEq

structure FetchTask where
  done : Bool := false
  attempt : Option EngineAttempt := none
  deriving DecidableEq

inductive Phase
  | scanning
  | reconciling (missing : List ℕ)
  | finished
  deriving DecidableEq

structure Triage where
  clock : ℕ := 0
  sourceId : ℕ
  scanId : ℕ
  threshold : ℚ
  suppressions : List Suppression := []
  findings : List Finding
  tasks : List FetchTask
  phase : Phase := .scanning
  detected : List FindingPayload := []
  ingested : List FindingPayload := []
  autoResolved : List Finding := []

inductive TriageAction
  | tick (elapsed : ℕ)
  | createSuppression (s : Suppression)
  | deleteSuppression (id : ℕ)
  | sweep
  | triage (id : ℕ) (target : FindingState)
  | lease (i : ℕ)
  | detect (i : ℕ) (p : FindingPayload)
  | flush (i : ℕ)
  | report (i : ℕ)
  | die (i : ℕ)
  | select
  | resolve
  | settle

/-- What the engine transmits: `prefilter` keeps what no rule of the lease covers. -/
def prefilter (rules : List SuppressionRule) (found : List FindingPayload) : List FindingPayload :=
  found.filter fun p => (firstMatch rules p.sighting).isNone

def triageTo (target : FindingState) (f : Finding) : Finding :=
  if target ∈ legalTransitions f.state then
    { f with state := target, resolution := if target = .resolved then some .manual else none }
  else f

/-- The conditional update of one selected row. -/
def autoResolve (id : ℕ) (f : Finding) : Finding :=
  if f.id = id ∧ f.state = .opened then { f with state := .resolved, resolution := some .auto }
  else f

namespace Triage

/-- The rows reconciliation selects. A scan that fetched nothing resolves nothing. -/
def missing (w : Triage) : List ℕ :=
  if w.tasks = [] then []
  else (w.findings.filter fun f => f.state = .opened && f.lastSeenScanId ≠ w.scanId &&
    f.suppressedAt.isNone).map (·.id)

def ingest (w : Triage) (kept : List FindingPayload) : Triage :=
  { w with
    findings :=
      ingestFindings w.suppressions w.sourceId w.scanId w.clock w.threshold w.findings kept
    ingested := w.ingested ++ kept.filter fun p => p.Scored w.threshold }

def setTask (w : Triage) (i : ℕ) (t : FetchTask) : Triage := { w with tasks := w.tasks.set i t }

def attemptAt (w : Triage) (i : ℕ) : Option EngineAttempt := w.tasks[i]?.bind (·.attempt)

def step (w : Triage) : TriageAction → Option Triage
  | .tick elapsed => some { w with clock := w.clock + elapsed }
  | .createSuppression s =>
      some { w with
        suppressions := w.suppressions ++ [s]
        findings := applyToExisting s w.sourceId w.clock w.findings }
  | .deleteSuppression id =>
      (w.suppressions.find? (·.id = id)).map fun s =>
        { w with
          suppressions := w.suppressions.filter (·.id ≠ id)
          findings := releaseCoveredBy w.suppressions s w.sourceId w.clock w.findings }
  | .sweep => some { w with findings := releaseLapsed w.suppressions w.sourceId w.clock w.findings }
  | .triage id target =>
      some { w with findings := w.findings.map fun f => if f.id = id then triageTo target f else f }
  | .lease i =>
      match w.tasks[i]? with
      | some { done := false, attempt := none } =>
          some (w.setTask i
            { attempt := some
                { rules := applicableSuppressions w.suppressions w.sourceId w.clock } })
      | _ => none
  | .detect i p =>
      (w.attemptAt i).map fun a =>
        { w.setTask i { attempt := some { a with found := a.found ++ [p] } } with
          detected := w.detected ++ [p] }
  | .flush i =>
      (w.attemptAt i).map fun a =>
        (w.ingest (prefilter a.rules a.found)).setTask i { attempt := some { a with found := [] } }
  | .report i =>
      (w.attemptAt i).map fun a =>
        (w.ingest (prefilter a.rules a.found)).setTask i { done := true }
  | .die i => (w.attemptAt i).map fun _ => w.setTask i {}
  | .select =>
      if w.phase = .scanning ∧ w.tasks.all (·.done) then
        some { w with phase := .reconciling w.missing }
      else none
  | .resolve =>
      match w.phase with
      | .reconciling (id :: rest) =>
          some { w with
            phase := .reconciling rest
            findings := w.findings.map (autoResolve id)
            autoResolved := w.autoResolved ++
              w.findings.filter fun f => f.id = id && f.state = .opened }
      | _ => none
  | .settle => if w.phase = .reconciling [] then some { w with phase := .finished } else none

/-- The table a scan starts from is any one that keeps its unique constraints. -/
inductive Reachable (guard : Triage → TriageAction → Prop) : Triage → Prop
  | start (sourceId scanId tasks : ℕ) (threshold : ℚ) (suppressions : List Suppression)
      (findings : List Finding) (hk : Keyed findings) :
      Reachable guard { sourceId, scanId, threshold, suppressions, findings,
                        tasks := List.replicate tasks {} }
  | step {w w' : Triage} {a : TriageAction} : Reachable guard w → guard w a →
      w.step a = some w' → Reachable guard w'

def run (guard : Triage → TriageAction → Prop) [∀ w a, Decidable (guard w a)] (w : Triage) :
    List TriageAction → Option Triage
  | [] => some w
  | a :: rest => if guard w a then (w.step a).bind fun w' => w'.run guard rest else none

theorem Reachable.run {guard : Triage → TriageAction → Prop} [∀ w a, Decidable (guard w a)]
    {w w' : Triage} {actions : List TriageAction} (hw : Reachable guard w)
    (h : w.run guard actions = some w') : Reachable guard w' := by
  induction actions generalizing w with
  | nil => exact Option.some.inj h ▸ hw
  | cons a rest ih =>
      unfold Triage.run at h
      split_ifs at h with hg
      obtain ⟨w₁, hstep, hrest⟩ := Option.bind_eq_some_iff.1 h
      exact ih (hw.step hg hstep) hrest

/-- A detection ingest did not take is about the row it would have found; one it took is
about the row that carries its fingerprint. -/
def Detected (w : Triage) (f : Finding) : Prop :=
  ∃ p ∈ w.detected, f.fingerprint = p.fingerprint ∨
    (p ∉ w.ingested ∧ ∃ g, findExisting w.findings p = some g ∧ g.id = f.id)

/-- When reconciliation selects, every open finding of a detection that ingest did not take,
be it held back, dropped below the threshold or lost with its engine, is marked suppressed;
and no suppression reaches a selected row before its update. -/
def StaysHidden (w : Triage) : TriageAction → Prop
  | .select => ∀ p ∈ w.detected, p ∉ w.ingested → ∀ f ∈ findExisting w.findings p,
      f.state = .opened → f.suppressedAt.isSome
  | .createSuppression s =>
      match w.phase with
      | .reconciling ids => ∀ f ∈ w.findings, f.id ∈ ids → s.Covers w.sourceId f = false
      | _ => True
  | _ => True

instance (w : Triage) : ∀ a : TriageAction, Decidable (w.StaysHidden a)
  | .select => inferInstanceAs (Decidable (∀ p ∈ w.detected, p ∉ w.ingested →
      ∀ f ∈ findExisting w.findings p, f.state = .opened → f.suppressedAt.isSome))
  | .createSuppression s => by
      unfold StaysHidden
      cases w.phase <;> dsimp only <;> infer_instance
  | .tick _ | .deleteSuppression _ | .sweep | .triage _ _ | .lease _ | .detect _ _ | .flush _
  | .report _ | .die _ | .resolve | .settle => isTrue trivial

structure Sound (w : Triage) : Prop where
  keyed : Keyed w.findings
  idle : ∀ t ∈ w.tasks, t.done → t.attempt = none
  closed : w.phase ≠ .scanning → ∀ t ∈ w.tasks, t.done
  ingested : ∀ p ∈ w.ingested, ∀ f ∈ w.findings, f.fingerprint = p.fingerprint →
    f.lastSeenScanId = w.scanId
  selected : ∀ ids, w.phase = .reconciling ids → ∀ f ∈ w.findings, f.id ∈ ids →
    f.suppressedAt = none ∧ ¬ w.Detected f
  resolved : ∀ f ∈ w.autoResolved, f.suppressedAt = none ∧ ¬ w.Detected f
  fresh : w.phase = .scanning → w.autoResolved = []

/-- Before reconciliation nothing is claimed of rows that were selected or resolved. -/
theorem sound_of_scanning {w : Triage} (hphase : w.phase = .scanning) (hkeyed : Keyed w.findings)
    (hidle : ∀ t ∈ w.tasks, t.done → t.attempt = none)
    (hingested : ∀ p ∈ w.ingested, ∀ f ∈ w.findings, f.fingerprint = p.fingerprint →
      f.lastSeenScanId = w.scanId) (hfresh : w.autoResolved = []) : w.Sound := by
  refine ⟨hkeyed, hidle, fun h => absurd hphase h, hingested, ?_, ?_, fun _ => hfresh⟩
  · intro ids hids
    rw [hphase] at hids
    cases hids
  · intro f hf
    rw [hfresh] at hf
    cases hf

theorem detected_map {w : Triage} {g : Finding → Finding} (hg : KeepsKeys g) {f f' : Finding}
    (hid : f'.id = f.id) (hfp : f'.fingerprint = f.fingerprint)
    (h : ({ w with findings := w.findings.map g } : Triage).Detected f') : w.Detected f := by
  obtain ⟨p, hp, h⟩ := h
  refine ⟨p, hp, ?_⟩
  rcases h with h | ⟨hmissed, row, hrow, hrowid⟩
  · exact Or.inl (hfp.symm.trans h)
  · rw [hg.findExisting] at hrow
    obtain ⟨old, hold, rfl⟩ := Option.map_eq_some_iff.1 hrow
    exact Or.inr ⟨hmissed, old, hold, (hg.id old).symm.trans (hrowid.trans hid)⟩

theorem Sound.mapRows {w : Triage} (hs : w.Sound) {g : Finding → Finding} (hg : KeepsKeys g)
    (hhide : ∀ ids, w.phase = .reconciling ids → ∀ f ∈ w.findings, f.id ∈ ids →
      f.suppressedAt = none → (g f).suppressedAt = none) :
    ({ w with findings := w.findings.map g } : Triage).Sound where
  keyed := hg.keyed hs.keyed
  idle := hs.idle
  closed := hs.closed
  ingested := by
    intro p hp f hf hfp
    obtain ⟨old, hold, rfl⟩ := List.mem_map.1 hf
    rw [hg.fingerprint] at hfp
    exact (hg.lastSeenScanId old).trans (hs.ingested p hp old hold hfp)
  selected := by
    intro ids hids f hf hmem
    obtain ⟨old, hold, rfl⟩ := List.mem_map.1 hf
    rw [hg.id] at hmem
    obtain ⟨hnone, hundetected⟩ := hs.selected ids hids old hold hmem
    exact ⟨hhide ids hids old hold hmem hnone,
      fun h => hundetected (detected_map hg (hg.id old) (hg.fingerprint old) h)⟩
  resolved := by
    intro f hf
    obtain ⟨hnone, hundetected⟩ := hs.resolved f hf
    exact ⟨hnone, fun h => hundetected (detected_map hg rfl rfl h)⟩
  fresh := hs.fresh

theorem keepsKeys_suppress (rule : SuppressionRule) (now : ℕ) :
    KeepsKeys fun f => suppress f rule now :=
  ⟨fun _ => rfl, fun _ => rfl, fun _ => rfl, fun _ => rfl⟩

theorem keepsKeys_triageTo (target : FindingState) : KeepsKeys (triageTo target) := by
  constructor <;> intro f <;> unfold triageTo <;> split_ifs <;> rfl

theorem keepsKeys_autoResolve (id : ℕ) : KeepsKeys (autoResolve id) := by
  constructor <;> intro f <;> unfold autoResolve <;> split_ifs <;> rfl

theorem release_suppressedAt (f : Finding) : (release f).suppressedAt = none := by
  unfold release
  split_ifs with h
  · exact h
  · rfl

theorem handOver_suppressedAt {f : Finding} (rules : List SuppressionRule)
    (h : f.suppressedAt = none) : (handOver rules f).suppressedAt = none := by
  unfold handOver
  cases firstMatch rules f.sighting with
  | none => exact release_suppressedAt f
  | some replacement => exact h

theorem Sound.scanning {w : Triage} (hs : w.Sound) {i : ℕ} {a : EngineAttempt}
    (ha : w.attemptAt i = some a) : w.phase = .scanning := by
  obtain ⟨t, ht, hta⟩ := Option.bind_eq_some_iff.1 ha
  have hmem := List.mem_of_getElem? ht
  by_contra hphase
  have hnone := hs.idle t hmem (hs.closed hphase t hmem)
  rw [hta] at hnone
  cases hnone

theorem Sound.setTask {w : Triage} (hs : w.Sound) (hphase : w.phase = .scanning) (i : ℕ)
    {t : FetchTask} (hidle : t.done → t.attempt = none) (detected : List FindingPayload) :
    ({ w.setTask i t with detected } : Triage).Sound := by
  apply sound_of_scanning (w := { w.setTask i t with detected }) hphase hs.keyed
  · intro t' ht'
    rcases List.mem_or_eq_of_mem_set ht' with hold | rfl
    · exact hs.idle t' hold
    · exact hidle
  · exact hs.ingested
  · exact hs.fresh hphase

theorem Sound.ingest {w : Triage} (hs : w.Sound) (hphase : w.phase = .scanning)
    (kept : List FindingPayload) : (w.ingest kept).Sound := by
  obtain ⟨hkeyed, hold, hseen⟩ := ingestFindings_spec hs.keyed w.suppressions w.sourceId w.scanId
    w.clock w.threshold kept
  apply sound_of_scanning (w := w.ingest kept) hphase hkeyed hs.idle
  · intro p hp f hf hfp
    rcases List.mem_append.1 hp with h | h
    · rcases hold f hf with hf | hf
      · exact hs.ingested p h f hf hfp
      · exact hf
    · obtain ⟨hkept, hscored⟩ := List.mem_filter.1 h
      exact hseen p hkept (by simpa using hscored) f hf hfp
  · exact hs.fresh hphase

theorem Sound.select {w : Triage} (hs : w.Sound) (hdone : w.tasks.all (·.done))
    (hhidden : w.StaysHidden .select) :
    ({ w with phase := .reconciling w.missing } : Triage).Sound where
  keyed := hs.keyed
  idle := hs.idle
  closed := fun _ => List.all_eq_true.1 hdone
  ingested := hs.ingested
  selected := by
    intro ids hids f hf hmem
    obtain rfl := Phase.reconciling.inj hids
    unfold missing at hmem
    split_ifs at hmem
    · cases hmem
    obtain ⟨row, hrow, hid⟩ := List.mem_map.1 hmem
    obtain ⟨hrow, hwhere⟩ := List.mem_filter.1 hrow
    obtain rfl := hs.keyed.eq_of_id hrow hf hid
    simp only [Bool.and_eq_true, decide_eq_true_eq, Option.isNone_iff_eq_none] at hwhere
    obtain ⟨⟨hopen, hunseen⟩, hnone⟩ := hwhere
    -- the row of a detection that was not ingested would be hidden
    have hlost : ∀ p ∈ w.detected, p ∉ w.ingested → findExisting w.findings p ≠ some row := by
      intro p hp hmissed hfind
      have hsome := hhidden p hp hmissed row hfind hopen
      rw [hnone] at hsome
      cases hsome
    refine ⟨hnone, ?_⟩
    rintro ⟨p, hp, hfp | ⟨hmissed, g, hg, hgid⟩⟩
    · by_cases hingested : p ∈ w.ingested
      · exact hunseen (hs.ingested p hingested row hrow hfp)
      · exact hlost p hp hingested (hs.keyed.findExisting_of_fingerprint hrow hfp)
    · obtain rfl := hs.keyed.eq_of_id (mem_of_findExisting hg) hrow hgid
      exact hlost p hp hmissed hg
  resolved := hs.resolved
  fresh := by
    intro h
    cases h

theorem Sound.resolve {w : Triage} (hs : w.Sound) {id : ℕ} {rest : List ℕ}
    (hphase : w.phase = .reconciling (id :: rest)) :
    ({ w with
        phase := .reconciling rest
        findings := w.findings.map (autoResolve id)
        autoResolved := w.autoResolved ++
          w.findings.filter fun f => f.id = id && f.state = .opened } : Triage).Sound := by
  have hkeep : ∀ f, (autoResolve id f).suppressedAt = f.suppressedAt := by
    intro f
    unfold autoResolve
    split_ifs <;> rfl
  have hmapped := hs.mapRows (keepsKeys_autoResolve id)
    (fun _ _ f _ _ hnone => (hkeep f).trans hnone)
  refine ⟨hmapped.keyed, hmapped.idle, fun _ => hs.closed ?_, hmapped.ingested, ?_, ?_, ?_⟩
  · rw [hphase]
    intro h
    cases h
  · intro ids hids f hf hmem
    obtain rfl := Phase.reconciling.inj hids
    exact hmapped.selected _ hphase f hf (List.mem_cons_of_mem _ hmem)
  · intro f hf
    rcases List.mem_append.1 hf with hold | hnew
    · exact hmapped.resolved f hold
    · obtain ⟨hrow, hwhere⟩ := List.mem_filter.1 hnew
      simp only [Bool.and_eq_true, decide_eq_true_eq] at hwhere
      have hsel := hs.selected _ hphase f hrow (by rw [hwhere.1]; exact List.mem_cons_self)
      exact ⟨hsel.1, fun h => hsel.2 (detected_map (keepsKeys_autoResolve id) rfl rfl h)⟩
  · intro h
    cases h

theorem Sound.step {w w' : Triage} (hs : w.Sound) {a : TriageAction} (hhidden : w.StaysHidden a)
    (h : w.step a = some w') : w'.Sound := by
  cases a with
  | tick elapsed =>
      obtain rfl := Option.some.inj h
      exact ⟨hs.keyed, hs.idle, hs.closed, hs.ingested, hs.selected, hs.resolved, hs.fresh⟩
  | createSuppression s =>
      obtain rfl := Option.some.inj h
      have hkeys := (keepsKeys_suppress s.toSuppressionRule w.clock).ite
        (fun f => s.Covers w.sourceId f = true)
      have hmapped := hs.mapRows hkeys (by
        intro ids hids f hf hmem hnone
        simp only [StaysHidden, hids] at hhidden
        simp only [hhidden f hf hmem, Bool.false_eq_true, if_false]
        exact hnone)
      exact ⟨hmapped.keyed, hmapped.idle, hmapped.closed, hmapped.ingested, hmapped.selected,
        hmapped.resolved, hmapped.fresh⟩
  | deleteSuppression id =>
      obtain ⟨s, -, rfl⟩ := Option.map_eq_some_iff.1 h
      have hkeys := (keepsKeys_handOver
        ((applicableSuppressions w.suppressions w.sourceId w.clock).filter (·.id ≠ s.id))).ite
        (fun f => f.suppressedById = some s.id)
      have hmapped := hs.mapRows hkeys (by
        intro ids _ f _ _ hnone
        split_ifs
        · exact handOver_suppressedAt _ hnone
        · exact hnone)
      exact ⟨hmapped.keyed, hmapped.idle, hmapped.closed, hmapped.ingested, hmapped.selected,
        hmapped.resolved, hmapped.fresh⟩
  | sweep =>
      obtain rfl := Option.some.inj h
      have hkeys := (keepsKeys_handOver
        (applicableSuppressions w.suppressions w.sourceId w.clock)).ite (fun f =>
          (f.suppressedAt.isSome && !(f.suppressedById.bind fun id =>
            w.suppressions.find? (·.id = id)).any (fun s => !s.Expired w.clock)) = true)
      exact hs.mapRows hkeys (by
        intro ids _ f _ _ hnone
        dsimp only
        split_ifs
        · exact handOver_suppressedAt _ hnone
        · exact hnone)
  | triage id target =>
      obtain rfl := Option.some.inj h
      have hkeys := (keepsKeys_triageTo target).ite (fun f => f.id = id)
      exact hs.mapRows hkeys (by
        intro ids _ f _ _ hnone
        dsimp only [triageTo]
        split_ifs <;> exact hnone)
  | lease i =>
      simp only [Triage.step] at h
      split at h
      · next hi =>
        obtain rfl := Option.some.inj h
        have hphase : w.phase = .scanning := by
          by_contra hphase
          have hdone := hs.closed hphase _ (List.mem_of_getElem? hi)
          cases hdone
        exact hs.setTask hphase i (fun hdone => by cases hdone) w.detected
      · cases h
  | detect i p =>
      obtain ⟨a, ha, rfl⟩ := Option.map_eq_some_iff.1 h
      exact hs.setTask (hs.scanning ha) i (fun hdone => by cases hdone) _
  | flush i =>
      obtain ⟨a, ha, rfl⟩ := Option.map_eq_some_iff.1 h
      have hphase := hs.scanning ha
      exact (hs.ingest hphase _).setTask hphase i (fun hdone => by cases hdone) w.detected
  | report i =>
      obtain ⟨a, ha, rfl⟩ := Option.map_eq_some_iff.1 h
      have hphase := hs.scanning ha
      exact (hs.ingest hphase _).setTask hphase i (fun _ => rfl) w.detected
  | die i =>
      obtain ⟨a, ha, rfl⟩ := Option.map_eq_some_iff.1 h
      exact hs.setTask (hs.scanning ha) i (fun hdone => by cases hdone) w.detected
  | select =>
      simp only [Triage.step] at h
      split_ifs at h with hready
      obtain rfl := Option.some.inj h
      exact hs.select hready.2 hhidden
  | resolve =>
      simp only [Triage.step] at h
      split at h
      · next id rest hphase =>
        obtain rfl := Option.some.inj h
        exact hs.resolve hphase
      · cases h
  | settle =>
      simp only [Triage.step] at h
      split_ifs at h with hphase
      obtain rfl := Option.some.inj h
      refine ⟨hs.keyed, hs.idle, fun _ => hs.closed ?_, hs.ingested, ?_, hs.resolved, ?_⟩
      · rw [hphase]
        intro h
        cases h
      · intro ids hids
        cases hids
      · intro h
        cases h

end Triage

end IcebergSST
