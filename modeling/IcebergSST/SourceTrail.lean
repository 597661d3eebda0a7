import IcebergSST.Interleaving
import IcebergSST.LiveMap

/-!
# Whole submissions and analysts at the findings of a source

`SourceTrail` is the findings of a source with every version of them that was committed. A
submission is ingested as a whole, over rows of which each may be of an older version than
the one that stands, and its changes are written over the present rows in one transaction
with its new rows and events; analysts and reconciliation commit between two submissions.

A submission is stored exactly when its write-backs are clear and it re-opens nothing that
its scan has re-opened before.
-/

namespace IcebergSST

def IngestedFinding.write (loaded updated current : IngestedFinding) : IngestedFinding where
  toFindingRecord :=
    loaded.toFindingRecord.write updated.toFindingRecord current.toFindingRecord
  events := current.events
  firstSeenScanId := current.firstSeenScanId
  correlationId := writeColumn loaded.correlationId updated.correlationId current.correlationId
  rulepackVersion :=
    writeColumn loaded.rulepackVersion updated.rulepackVersion current.rulepackVersion
  redactedSnippet :=
    writeColumn loaded.redactedSnippet updated.redactedSnippet current.redactedSnippet
  entropy := writeColumn loaded.entropy updated.entropy current.entropy
  confidence := writeColumn loaded.confidence updated.confidence current.confidence
  severity := writeColumn loaded.severity updated.severity current.severity
  validation := writeColumn loaded.validation updated.validation current.validation
  validatedAt := writeColumn loaded.validatedAt updated.validatedAt current.validatedAt
  dueAt := writeColumn loaded.dueAt updated.dueAt current.dueAt

structure SourceTrail where
  stored : SourceFindings
  /-- The versions committed before, the oldest first. -/
  earlier : List (List IngestedFinding) := []

/-- `read` numbers the version that the transaction loaded, of each row its own. -/
inductive SourceTrailAction
  | patch (read id actorId : ℕ) (changes : FindingUpdate)
      (evidenceCheck : Option (FindingRecord → Bool))
  | ingest (s : IngestSettings) (threshold : ℚ) (read : ℕ → ℕ) (payloads : List ReportedFinding)
  | reconcile (scanId id : ℕ)

def SourceTrailAction.IsSubmission : SourceTrailAction → Prop
  | .ingest .. => True
  | _ => False

theorem keyed_rows_iff {rows : List IngestedFinding} : Keyed (rows.map (·.toFinding)) ↔
    ((rows.map fun f => (f.id, f.fingerprint)).map Prod.fst).Nodup ∧
      ((rows.map fun f => (f.id, f.fingerprint)).map Prod.snd).Nodup :=
  Ingested.keyed_iff (w := { rows })

instance (rows : List IngestedFinding) : Decidable (Keyed (rows.map (·.toFinding))) :=
  decidable_of_iff _ keyed_rows_iff.symm

namespace SourceTrail

def versions (w : SourceTrail) : List (List IngestedFinding) := w.earlier ++ [w.stored.rows]

def load (w : SourceTrail) (read id : ℕ) : Option IngestedFinding :=
  w.versions[read]?.bind fun rows => rows.find? fun f => f.id = id

/-- A transaction that breaks a unique constraint of the two tables is rolled back. -/
def commit (w : SourceTrail) (rows : List IngestedFinding) : Option SourceTrail :=
  if h : Keyed (rows.map (·.toFinding)) ∧ ∀ f ∈ rows, (systemKeys f.events).Nodup then
    some { stored := ⟨rows, h.1, h.2⟩, earlier := w.versions }
  else none

def update (w : SourceTrail) (id : ℕ) (change : IngestedFinding → IngestedFinding)
    (events : List FindingEvent) : Option SourceTrail :=
  w.commit (w.stored.rows.map fun f => if f.id = id then (change f).note events else f)

/-- The rows of a submission. Only a submission changes an identity, and it holds the lock of
its scan when it reads, so a row that it finds has the identity that stands. -/
def loadAll (w : SourceTrail) (read : ℕ → ℕ) : List IngestedFinding :=
  w.stored.rows.map fun f =>
    { ((w.load (read f.id) f.id).filter fun g => g.fingerprint = f.fingerprint).getD f with
      events := f.events }

/-- What a submission leaves: its changes over the rows that stand, and its new rows. -/
def written (w : SourceTrail) (loaded out : List IngestedFinding) : List IngestedFinding :=
  out.map fun f =>
    match loaded.find? fun g => g.id = f.id, w.stored.rows.find? fun g => g.id = f.id with
    | some g, some current => { g.write f current with events := f.events }
    | _, _ => f

/-- Refused changes and updates that match no row leave nothing to commit. -/
def step (w : SourceTrail) : SourceTrailAction → Option SourceTrail
  | .patch read id actorId changes evidenceCheck =>
      (w.load read id).bind fun loaded =>
        match applyTriage loaded.toFindingRecord changes actorId evidenceCheck with
        | .error _ => none
        | .ok (updated, events) =>
            w.update id (loaded.write { loaded with toFindingRecord := updated }) events
  | .ingest s threshold read payloads =>
      let loaded := w.loadAll read
      (ingestBatch s threshold loaded payloads).bind fun out => w.commit (w.written loaded out.rows)
  | .reconcile scanId id =>
      if ∃ f ∈ w.stored.rows, f.id = id ∧ f.state = .opened then
        w.update id (fun f => { f with state := .resolved, resolution := some .auto })
          [autoResolvedEvent scanId]
      else none

/-- A transaction that is refused or rolled back leaves the findings as they were. -/
def attempt (w : SourceTrail) (a : SourceTrailAction) : SourceTrail := (w.step a).getD w

/-- The transactions of a run, each with the findings as it comes upon them. -/
def tried (w : SourceTrail) : List SourceTrailAction → List (SourceTrail × SourceTrailAction)
  | [] => []
  | a :: actions => (w, a) :: tried (w.attempt a) actions

/-- The write-backs of a submission are clear, and it re-opens nothing that its scan has
re-opened before. -/
def Storable (w : SourceTrail) : SourceTrailAction → Prop
  | .ingest s threshold read payloads =>
      (IngestSession.begin (w.loadAll read) threshold payloads).FlushesClear s
          (scoredOf threshold payloads) ∧
        (IngestSession.begin (w.loadAll read) threshold payloads).ReopensOnce s
          (scoredOf threshold payloads)
  | _ => True

def IsNew (w : SourceTrail) : Prop :=
  w.earlier = [] ∧ ∀ f ∈ w.stored.rows, f.state = .opened ∧ f.events = []

variable {w : SourceTrail} {s : IngestSettings} {threshold : ℚ} {read : ℕ → ℕ}
  {payloads : List ReportedFinding}

theorem load_id {n id : ℕ} {f : IngestedFinding} (h : w.load n id = some f) : f.id = id := by
  obtain ⟨rows, _, hfind⟩ := Option.bind_eq_some_iff.1 h
  simpa using List.find?_some hfind

theorem loadAll_keys (w : SourceTrail) (read : ℕ → ℕ) :
    (w.loadAll read).map (fun f => (f.id, f.fingerprint)) =
      w.stored.rows.map fun f => (f.id, f.fingerprint) := by
  unfold loadAll
  rw [List.map_map]
  apply List.map_congr_left
  intro f _
  simp only [Function.comp_apply, Prod.mk.injEq]
  cases h : (w.load (read f.id) f.id).filter fun g => g.fingerprint = f.fingerprint with
  | none => exact ⟨rfl, rfl⟩
  | some g =>
      obtain ⟨hload, hfp⟩ := Option.filter_eq_some_iff.1 h
      exact ⟨load_id hload, of_decide_eq_true hfp⟩

/-- A submission may find every row as it stands. -/
theorem loadAll_present (w : SourceTrail) :
    w.loadAll (fun _ => w.earlier.length) = w.stored.rows := by
  unfold loadAll
  conv_rhs => rw [← List.map_id w.stored.rows]
  apply List.map_congr_left
  intro f hf
  have hload : w.load w.earlier.length f.id = some f := by
    have hfind := (UniqueColumn.find?_key (Ingested.Keyed.rows_ids (w := { rows := w.stored.rows })
      w.stored.keyed)).2 ⟨hf, rfl⟩
    simpa [load, versions] using hfind
  rw [hload, Option.filter_some, if_pos (by simp)]
  rfl

def loaded (w : SourceTrail) (read : ℕ → ℕ) : SourceFindings where
  rows := w.loadAll read
  keyed := by
    have hstored := keyed_rows_iff.1 w.stored.keyed
    apply keyed_rows_iff.2
    rw [loadAll_keys]
    exact hstored
  events := by
    intro f hf
    obtain ⟨g, hg, rfl⟩ := List.mem_map.1 hf
    exact w.stored.events g hg

theorem loaded_fingerprint {g f : IngestedFinding} (hg : g ∈ w.loadAll read)
    (hf : f ∈ w.stored.rows) (hid : g.id = f.id) : g.fingerprint = f.fingerprint := by
  have hkey : (g.id, g.fingerprint) ∈ w.stored.rows.map fun f => (f.id, f.fingerprint) := by
    rw [← loadAll_keys w read]
    exact List.mem_map_of_mem hg
  have hkey' : (f.id, f.fingerprint) ∈ w.stored.rows.map fun f => (f.id, f.fingerprint) :=
    List.mem_map_of_mem hf
  exact congrArg Prod.snd
    (List.inj_on_of_nodup_map (keyed_rows_iff.1 w.stored.keyed).1 hkey hkey' hid)

theorem written_keys (w : SourceTrail) (read : ℕ → ℕ) (out : List IngestedFinding) :
    (w.written (w.loadAll read) out).map (fun f => (f.id, f.fingerprint)) =
      out.map fun f => (f.id, f.fingerprint) := by
  unfold written
  rw [List.map_map]
  apply List.map_congr_left
  intro f _
  simp only [Function.comp_apply]
  split
  · rename_i g current hg hcurrent
    have hgid : g.id = f.id := by simpa using List.find?_some hg
    have hid : current.id = f.id := by simpa using List.find?_some hcurrent
    have hfp := loaded_fingerprint (List.mem_of_find?_eq_some hg)
      (List.mem_of_find?_eq_some hcurrent) (hgid.trans hid.symm)
    simp only [IngestedFinding.write, FindingRecord.write, Prod.mk.injEq]
    refine ⟨hid, ?_⟩
    rw [← hfp, writeColumn_eq_writeBack, Column.writeBack]
    split_ifs with h
    · exact h.symm
    · rfl
  · rfl

theorem written_events {g : IngestedFinding} {rows out : List IngestedFinding}
    (hg : g ∈ w.written rows out) : ∃ f ∈ out, g.events = f.events := by
  obtain ⟨f, hf, rfl⟩ := List.mem_map.1 hg
  refine ⟨f, hf, ?_⟩
  split <;> rfl

/-- What a batch leaves of loaded rows breaks no constraint when it is written. -/
theorem commit_written {out : List IngestedFinding} (hkeyed : Keyed (out.map (·.toFinding)))
    (hevents : ∀ f ∈ out, (systemKeys f.events).Nodup) :
    (w.commit (w.written (w.loadAll read) out)).isSome := by
  unfold commit
  rw [dif_pos]
  · rfl
  · constructor
    · rw [keyed_rows_iff, written_keys]
      exact keyed_rows_iff.1 hkeyed
    · intro g hg
      obtain ⟨f, hf, heq⟩ := written_events hg
      rw [heq]
      exact hevents f hf

/-- A submission is stored exactly if it can be, whatever versions of the rows it has loaded. -/
theorem isSome_step_ingest (w : SourceTrail) (s : IngestSettings) (threshold : ℚ)
    (read : ℕ → ℕ) (payloads : List ReportedFinding) :
    (w.step (.ingest s threshold read payloads)).isSome ↔
      w.Storable (.ingest s threshold read payloads) := by
  have hkeyed := (tracks_begin threshold (w.loaded read) payloads).keyed
  have hrows : w.loadAll read = (w.loaded read).rows := rfl
  simp only [step, Storable]
  rw [hrows, ingestBatch_eq, ingestSingly_eq]
  by_cases hclear : (IngestSession.begin (w.loaded read).rows threshold payloads).FlushesClear s
      (scoredOf threshold payloads)
  · by_cases honce : (IngestSession.begin (w.loaded read).rows threshold payloads).ReopensOnce s
        (scoredOf threshold payloads)
    · rw [if_pos hclear, if_pos honce]
      refine iff_of_true ?_ ⟨hclear, honce⟩
      exact commit_written (hkeyed.run _)
        ((Ingested.eventsUnique_run hkeyed _).2 ⟨(w.loaded read).events, honce⟩)
    · rw [if_pos hclear, if_neg honce]
      exact iff_of_false (by simp) fun h => honce h.2
  · rw [if_neg hclear]
    exact iff_of_false (by simp) fun h => hclear h.1

/-- In a run of submissions, analysts' changes and reconciliations, from any findings that
meet the constraints, every submission is stored if and only if each can be when it comes. -/
theorem submissions_stored_iff (w : SourceTrail) (actions : List SourceTrailAction) :
    (∀ x ∈ w.tried actions, x.2.IsSubmission → (x.1.step x.2).isSome) ↔
      ∀ x ∈ w.tried actions, x.1.Storable x.2 := by
  refine forall₂_congr fun x _ => ?_
  obtain ⟨w, _ | ⟨s, threshold, read, payloads⟩ | _⟩ := x
  · exact iff_of_true False.elim trivial
  · exact (imp_iff_right trivial).trans (w.isSome_step_ingest s threshold read payloads)
  · exact iff_of_true False.elim trivial

def leakedSource : SourceTrail where
  stored :=
    { rows := [chainedRow 1 "aaaaaaaaaaaaaaaa" "1111111111111111"]
      keyed := ⟨by decide, by decide⟩
      events := by decide }

def reportedBy3 (read : ℕ) : SourceTrailAction :=
  .ingest { chainedSettings with scanId := 3 } 0 (fun _ => read)
    [{ fingerprint := "aaaaaaaaaaaaaaaa"
       secretHash := "1111111111111111"
       ruleId := "generic-api-key"
       rulepackVersion := "1"
       redactedSnippet := "****"
       severity := .high }]

/-- Scan 2 does not see the finding, scan 3 re-opens it, an analyst resolves it, and what
scan 3 then reports of it cannot be stored. Nor can a submission whose two payloads pass
an identity on between two open findings. -/
theorem submission_can_be_refused :
    (∃ w : SourceTrail, Machine.Reachable step (fun _ _ => True) IsNew w ∧
      w.step (reportedBy3 w.earlier.length) = none) ∧
    ∃ w : SourceTrail, w.IsNew ∧
      w.step (.ingest chainedSettings 0 (fun _ => w.earlier.length) chainedPayloads) = none := by
  constructor
  · have hrun : (Machine.run step (fun _ _ => True) leakedSource
        [.reconcile 2 1, reportedBy3 1, .patch 2 1 7 { state := some .resolved } none]).any
          fun w => decide (w.step (reportedBy3 w.earlier.length)).isNone := by decide +kernel
    have hnew : Machine.Reachable step (fun _ _ => True) IsNew leakedSource :=
      .start ⟨rfl, by simp [leakedSource, chainedRow]⟩
    obtain ⟨w, hw, hrefused⟩ := hnew.exists_of_run hrun
    exact ⟨w, hw, Option.isNone_iff_eq_none.1 hrefused⟩
  · refine ⟨{ stored := chainedFindings }, ⟨rfl, by simp [chainedFindings, chainedRow]⟩, ?_⟩
    simp only [step]
    rw [loadAll_present, ingestBatch_eq, if_neg chained_not_clear]
    rfl

end SourceTrail

end IcebergSST
