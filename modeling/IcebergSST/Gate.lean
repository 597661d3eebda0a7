import IcebergSST.Library.Machine
import IcebergSST.Finalization
import IcebergSST.Trail

/-!
# Who may resolve a finding

Over every interleaving, an open finding becomes resolved with resolution `auto` only by
the conditional update of a finalization that is under way: one of a full scan, whose
tasks were all completed when it read them, each with a report that misses nothing, and
one of them a fetch. The finding had not been stored by any submission of that scan.
-/

namespace IcebergSST

variable {χ ρ : Type}

/-- What a task that is over can still come to: nothing, or a failed lease written over it. -/
structure StaysOver (task task' : ScanTask χ ρ) : Prop where
  kind : task'.kind = task.kind
  terminal : task'.status.Terminal
  evidence : (task'.status = task.status ∧ task'.coverage = task.coverage) ∨
    ∃ reason, task'.coverage = some (failureReport task.kind reason)

theorem StaysOver.refl {task : ScanTask χ ρ} (h : task.status.Terminal) : StaysOver task task :=
  ⟨rfl, h, Or.inl ⟨rfl, rfl⟩⟩

namespace TaskRecord
variable {κ : Type} {w w' : TaskRecord κ χ ρ} {a : RecordAction κ χ ρ}

theorem takeProgress_db (w : TaskRecord κ χ ρ) (row : ScanTask χ ρ) (engine : EngineId)
    (body : ProgressSubmission κ χ) :
    (w.takeProgress row engine body).db = (lockedProgress row w.db engine body).1 := by
  simp only [takeProgress]
  split <;> rfl

theorem step_kind (h : w.step a = some w') : w'.db.task.kind = w.db.task.kind := by
  cases a with
  | lease engine =>
      obtain ⟨db, hclaim, rfl⟩ := Option.map_eq_some_iff.1 h
      exact (Carries.claim hclaim).kind
  | leaseFails read failure | discard read =>
      obtain ⟨seen, _, h⟩ := Option.bind_eq_some_iff.1 h
      split_ifs at h
      obtain rfl := Option.some.inj h
      rfl
  | progress read engine body =>
      obtain ⟨seen, -, -, rfl⟩ := step_progress h
      rw [takeProgress_db]
      rcases lockedProgress_cases seen.task w.db engine body with ⟨hstored, _⟩ | ⟨hsame, _⟩
      · obtain ⟨coverage, htask, _⟩ := hstored.task
        rw [htask]
      · rw [hsame]
  | results read engine body =>
      obtain ⟨seen, -, -, rfl⟩ := step_results h
      change (lockedResults seen.task w.db engine body).1.task.kind = w.db.task.kind
      rcases lockedResults_cases seen.task w.db engine body with ⟨hstored, _⟩ | ⟨hsame, _⟩
      · exact hstored.task.1
      · rw [hsame]
  | renew =>
      obtain rfl := Option.some.inj h
      exact (Carries.renew w.db).kind
  | reclaim =>
      obtain rfl := Option.some.inj h
      exact (Carries.reclaim w.db).kind
  | cancel =>
      obtain rfl := Option.some.inj h
      change (cancelTask w.db).task.kind = w.db.task.kind
      unfold cancelTask
      split_ifs <;> rfl
  | otherReport counts version =>
      obtain rfl := Option.some.inj h
      rfl

theorem not_leased_of_terminal {s : ScanTaskStatus} (h : s.Terminal) : ¬ s.Leased := by
  intro hleased
  rw [ScanTaskStatus.not_terminal_of_leased hleased] at h
  cases h

theorem accepted_eq_none (hterm : w.db.task.status.Terminal) (a : RecordAction κ χ ρ) :
    a.accepted w = none := by
  have hlive := not_leased_of_terminal hterm
  cases a with
  | progress read engine body =>
      simp only [RecordAction.accepted]
      cases w.versions[read]? with
      | none => rfl
      | some seen =>
          rw [Option.bind_some]
          rcases lockedProgress_cases seen.task w.db engine body with ⟨hstored, _⟩ | ⟨_, hanswer⟩
          · exact absurd hstored.leased hlive
          · cases hout : (lockedProgress seen.task w.db engine body).2 with
            | error _ => rfl
            | ok answer => rw [(hanswer answer hout).1]
  | results read engine body =>
      simp only [RecordAction.accepted]
      cases w.versions[read]? with
      | none => rfl
      | some seen =>
          rw [Option.bind_some]
          rcases lockedResults_cases seen.task w.db engine body with ⟨hstored, _⟩ | ⟨_, hanswer⟩
          · exact absurd hstored.leased hlive
          · cases hout : (lockedResults seen.task w.db engine body).2 with
            | error _ => rfl
            | ok answer =>
                obtain ⟨replay, created⟩ := answer
                obtain rfl : replay = true := hanswer _ hout
                rfl
  | _ => rfl

theorem step_over (hterm : w.db.task.status.Terminal) (h : w.step a = some w') :
    StaysOver w.db.task w'.db.task := by
  have hlive := not_leased_of_terminal hterm
  cases a with
  | lease engine =>
      obtain ⟨db, hclaim, rfl⟩ := Option.map_eq_some_iff.1 h
      unfold claimTask at hclaim
      split_ifs at hclaim with hqueued
      rw [hqueued] at hterm
      cases hterm
  | leaseFails read failure =>
      obtain ⟨seen, _, h⟩ := Option.bind_eq_some_iff.1 h
      split_ifs at h
      obtain rfl := Option.some.inj h
      exact ⟨rfl, rfl, Or.inr ⟨failure.reason, rfl⟩⟩
  | discard read =>
      obtain ⟨seen, _, h⟩ := Option.bind_eq_some_iff.1 h
      split_ifs at h
      obtain rfl := Option.some.inj h
      exact ⟨rfl, hterm, Or.inl ⟨rfl, rfl⟩⟩
  | progress read engine body =>
      obtain ⟨seen, -, -, rfl⟩ := step_progress h
      rw [takeProgress_db]
      rcases lockedProgress_cases seen.task w.db engine body with ⟨hstored, _⟩ | ⟨hsame, _⟩
      · exact absurd hstored.leased hlive
      · rw [hsame]
        exact .refl hterm
  | results read engine body =>
      obtain ⟨seen, -, -, rfl⟩ := step_results h
      change StaysOver w.db.task (lockedResults seen.task w.db engine body).1.task
      rcases lockedResults_cases seen.task w.db engine body with ⟨hstored, _⟩ | ⟨hsame, _⟩
      · exact absurd hstored.leased hlive
      · rw [hsame]
        exact .refl hterm
  | renew =>
      obtain rfl := Option.some.inj h
      change StaysOver w.db.task (renewLease w.db).task
      rw [renewLease, if_neg hlive]
      exact .refl hterm
  | reclaim =>
      obtain rfl := Option.some.inj h
      change StaysOver w.db.task (reclaimExpiredLease w.db).task
      rw [reclaimExpiredLease, if_neg hlive]
      exact .refl hterm
  | cancel =>
      obtain rfl := Option.some.inj h
      change StaysOver w.db.task (cancelTask w.db).task
      rw [cancelTask, if_pos hterm]
      exact .refl hterm
  | otherReport counts version =>
      obtain rfl := Option.some.inj h
      exact .refl hterm

end TaskRecord

/-- The statuses read when all tasks were over, beside the tasks as they stand: one that
was completed then is completed, or a failed lease has put a gap in its report. -/
def Evident (statuses : List ScanTaskStatus) (tasks : List (ScanTask χ ρ)) : Prop :=
  statuses ≠ [] ∧ List.Forall₂ (fun status task => task.status.Terminal ∧
    (status = .completed → task.status = .completed ∨
      ∃ r, storedTaskReport task = some r ∧ r.payload.scope.gaps ≠ 0)) statuses tasks

theorem Evident.terminal {statuses : List ScanTaskStatus} {tasks : List (ScanTask χ ρ)}
    (h : Evident statuses tasks) : ∀ task ∈ tasks, task.status.Terminal := by
  obtain ⟨-, h⟩ := h
  induction h with
  | nil => exact fun task hmem => (by cases hmem)
  | cons hhead _ ih =>
      intro task hmem
      rcases List.mem_cons.1 hmem with rfl | hmem
      · exact hhead.1
      · exact ih task hmem

theorem Evident.of_tasks {tasks : List (ScanTask χ ρ)} (hsome : tasks ≠ [])
    (hterm : ∀ task ∈ tasks, task.status.Terminal) : Evident (tasks.map (·.status)) tasks := by
  refine ⟨by simpa using hsome, ?_⟩
  rw [List.forall₂_map_left_iff]
  exact List.forall₂_same.2 fun task hmem => ⟨hterm task hmem, Or.inl⟩

theorem gap_of_failureReport {task : ScanTask χ ρ} {reason : AllowedReason .scopeGap}
    (h : task.coverage = some (failureReport task.kind reason)) :
    ∃ r, storedTaskReport task = some r ∧ r.payload.scope.gaps ≠ 0 := by
  refine ⟨failureReport task.kind reason, ?_, one_ne_zero⟩
  rw [storedTaskReport, h]
  simp [Option.filter, failureReport]

theorem Evident.mono {statuses : List ScanTaskStatus} {tasks tasks' : List (ScanTask χ ρ)}
    (h : Evident statuses tasks) (hover : List.Forall₂ StaysOver tasks tasks') :
    Evident statuses tasks' := by
  obtain ⟨hsome, h⟩ := h
  refine ⟨hsome, ?_⟩
  clear hsome
  induction h generalizing tasks' with
  | nil =>
      cases hover
      exact .nil
  | cons hhead _ ih =>
      cases hover with
      | cons hstays hover =>
          refine .cons ⟨hstays.terminal, fun hcompleted => ?_⟩ (ih hover)
          rcases hstays.evidence with ⟨hstatus, hcov⟩ | ⟨reason, hgap⟩
          · rw [hstatus, storedTaskReport, hcov, hstays.kind]
            exact hhead.2 hcompleted
          · exact Or.inr (gap_of_failureReport (hstays.kind ▸ hgap))

theorem Evident.completed {statuses : List ScanTaskStatus} {tasks : List (ScanTask χ ρ)}
    (h : Evident statuses tasks) (hall : ∀ status ∈ statuses, status = .completed)
    (hclean : ∀ task ∈ tasks, ∃ r, storedTaskReport task = some r ∧ r.payload.scope.gaps = 0) :
    ∀ task ∈ tasks, task.status = .completed := by
  obtain ⟨-, h⟩ := h
  induction h with
  | nil => exact fun task hmem => (by cases hmem)
  | cons hhead _ ih =>
      intro task hmem
      rcases List.mem_cons.1 hmem with rfl | hmem
      · rcases hhead.2 (hall _ List.mem_cons_self) with hdone | ⟨r, hr, hgap⟩
        · exact hdone
        · obtain ⟨r', hr', hnone⟩ := hclean task List.mem_cons_self
          rw [hr] at hr'
          obtain rfl := Option.some.inj hr'
          exact absurd hnone hgap
      · exact ih (fun status hs => hall status (List.mem_cons_of_mem _ hs))
          (fun task ht => hclean task (List.mem_cons_of_mem _ ht)) task hmem

theorem forall₂_set {α : Type} {R : α → α → Prop} {l : List α} (hrefl : ∀ x ∈ l, R x x) {j : ℕ}
    {x y : α} (hx : l[j]? = some x) (hxy : R x y) : List.Forall₂ R l (l.set j y) := by
  induction l generalizing j with
  | nil => simp at hx
  | cons z l ih =>
      have hl : ∀ x ∈ l, R x x := fun x hmem => hrefl x (List.mem_cons_of_mem _ hmem)
      cases j with
      | zero =>
          obtain rfl : z = x := by simpa using hx
          exact .cons hxy (List.forall₂_same.2 hl)
      | succ j =>
          rw [List.set_cons_succ]
          exact .cons (hrefl z List.mem_cons_self) (ih hl (by simpa using hx))

theorem completed_of_finalStatus {statuses : List ScanTaskStatus}
    (h : finalStatus statuses = .completed) : ∀ status ∈ statuses, status = .completed := by
  unfold finalStatus at h
  split_ifs at h with _ hall
  simpa using hall

theorem finalStatus_not_active (statuses : List ScanTaskStatus) :
    (finalStatus statuses).Active = false := by
  unfold finalStatus
  split_ifs <;> rfl

namespace ScanRun

def taskRows (run : ScanRun χ ρ) : List (ScanTask χ ρ) := run.tasks.map (·.db.task)

/-- What the manifest has shown before anything is selected. -/
structure Authorized (run : ScanRun χ ρ) (statuses : List ScanTaskStatus)
    (tasks : List (ScanTask χ ρ)) : Prop where
  mode : run.mode = .full
  statuses : ∀ status ∈ statuses, status = .completed
  kinds : tasks.map (·.kind) = run.taskRows.map (·.kind)
  clean : ∀ task ∈ tasks, task.status = .completed ∧
    ∃ r, storedTaskReport task = some r ∧ r.payload.counts.skipped = 0 ∧
      r.payload.counts.failed = 0 ∧ r.payload.scope.gaps = 0

def Unseen (i : ℕ) (rows : List Finding) (missing : List ℕ) : Prop :=
  ∀ id ∈ missing, ∀ f ∈ rows, f.id = id → f.lastSeenScanId ≠ i

def StageSound (run : ScanRun χ ρ) (i : ℕ) (rows : List Finding) (f : Finalization χ ρ) : Prop :=
  match f.stage with
  | .updated | .settled => True
  | .authorized tasks => run.Authorized f.statuses tasks
  | .selected tasks missing => run.Authorized f.statuses tasks ∧ Unseen i rows missing
  | .resolving tasks missing => run.Authorized f.statuses tasks ∧ Unseen i rows missing ∧
      (missing ≠ [] → ∃ task ∈ tasks, task.kind = .fetch)

def AllSeen (run : ScanRun χ ρ) (i : ℕ) (rows : List Finding) : Prop :=
  ∀ p ∈ run.accepted, p.1.Scored p.2 → ∀ f ∈ rows, f.fingerprint = p.1.fingerprint →
    f.lastSeenScanId = i

structure Sound (run : ScanRun χ ρ) (i : ℕ) (rows : List Finding) : Prop where
  ended : run.status.Active = false →
    run.finalizing = none ∧ ∀ task ∈ run.taskRows, task.status.Terminal
  reads : ∀ statuses ∈ run.reads, Evident statuses run.taskRows
  finalizing : ∀ f ∈ run.finalizing, run.finalizations = 1 ∧ Evident f.statuses run.taskRows ∧
    run.StageSound i rows f
  fresh : run.status.Active → run.finalizing = none → run.finalizations = 0
  accepted : run.status.Active → run.AllSeen i rows

variable {run : ScanRun χ ρ} {i : ℕ} {rows rows' : List Finding}

def SameKeys (rows rows' : List Finding) : Prop :=
  ∀ f' ∈ rows', ∃ f ∈ rows, f'.id = f.id ∧ f'.fingerprint = f.fingerprint ∧
    f'.lastSeenScanId = f.lastSeenScanId

theorem SameKeys.of_map {g : Finding → Finding} (hg : KeepsKeys g) (rows : List Finding) :
    SameKeys rows (rows.map g) := by
  intro f' hf'
  obtain ⟨f, hf, rfl⟩ := List.mem_map.1 hf'
  exact ⟨f, hf, hg.id f, hg.fingerprint f, hg.lastSeenScanId f⟩

theorem Unseen.keep {missing : List ℕ} (h : Unseen i rows missing) (hkeys : SameKeys rows rows') :
    Unseen i rows' missing := by
  intro id hid f' hf' heq
  obtain ⟨f, hf, hfid, _, hseen⟩ := hkeys f' hf'
  rw [hseen]
  exact h id hid f hf (hfid.symm.trans heq)

theorem StageSound.keep {f : Finalization χ ρ} (h : run.StageSound i rows f)
    (hkeys : SameKeys rows rows') : run.StageSound i rows' f := by
  unfold StageSound at h ⊢
  split at h
  · exact h
  · exact h
  · exact h
  · exact ⟨h.1, h.2.keep hkeys⟩
  · exact ⟨h.1, h.2.1.keep hkeys, h.2.2⟩

theorem AllSeen.keep (h : run.AllSeen i rows) (hkeys : SameKeys rows rows') :
    run.AllSeen i rows' := by
  intro p hp hscored f' hf' hfp
  obtain ⟨f, hf, _, hffp, hseen⟩ := hkeys f' hf'
  rw [hseen]
  exact h p hp hscored f hf (hffp.symm.trans hfp)

theorem Sound.keep (h : run.Sound i rows) (hkeys : SameKeys rows rows') : run.Sound i rows' where
  ended := h.ended
  reads := h.reads
  finalizing f hf :=
    ⟨(h.finalizing f hf).1, (h.finalizing f hf).2.1, (h.finalizing f hf).2.2.keep hkeys⟩
  fresh := h.fresh
  accepted hactive := (h.accepted hactive).keep hkeys

theorem Sound.inactive (h : run.Sound i rows) (hover : run.status.Active = false)
    (rows' : List Finding) : run.Sound i rows' where
  ended := h.ended
  reads := h.reads
  finalizing f hf := by
    rw [(h.ended hover).1] at hf
    cases hf
  fresh := h.fresh
  accepted hactive := by
    rw [hover] at hactive
    cases hactive

theorem Sound.live (h : run.Sound i rows) {task : ScanTask χ ρ} (hmem : task ∈ run.taskRows)
    (hlive : ¬ task.status.Terminal) :
    run.status.Active ∧ run.reads = [] ∧ run.finalizing = none := by
  refine ⟨?_, ?_, ?_⟩
  · by_contra hover
    exact hlive ((h.ended (Bool.eq_false_iff.2 hover)).2 task hmem)
  · apply List.eq_nil_iff_forall_not_mem.2
    intro statuses hread
    exact hlive ((h.reads statuses hread).terminal task hmem)
  · apply Option.eq_none_iff_forall_not_mem.2
    intro f hf
    exact hlive ((h.finalizing f hf).2.1.terminal task hmem)

theorem statusAfter_active (run : ScanRun χ ρ) (record : TaskRecord FindingPayload χ ρ)
    (a : RecordAction FindingPayload χ ρ) :
    (run.statusAfter record a).Active = run.status.Active := by
  cases a with
  | lease engine =>
      simp only [statusAfter]
      by_cases hqueued : run.status = .queued
      · rw [if_pos hqueued, hqueued]
        split_ifs <;> rfl
      · rw [if_neg hqueued]
  | _ => rfl

theorem Sound.moved (h : run.Sound i rows) {run' : ScanRun χ ρ}
    (hactive : run'.status.Active = run.status.Active) (hmode : run'.mode = run.mode)
    (hreads : ∀ statuses ∈ run'.reads, statuses ∈ run.reads ∨ Evident statuses run'.taskRows)
    (hfinalizing : run'.finalizing = run.finalizing)
    (hcount : run'.finalizations = run.finalizations) (haccepted : run'.accepted = run.accepted)
    (hkinds : run'.taskRows.map (·.kind) = run.taskRows.map (·.kind))
    (hover : (∀ task ∈ run.taskRows, task.status.Terminal) →
      List.Forall₂ StaysOver run.taskRows run'.taskRows) : run'.Sound i rows := by
  have hauth : ∀ statuses tasks, run.Authorized statuses tasks →
      run'.Authorized statuses tasks := by
    intro statuses tasks ha
    exact ⟨hmode.trans ha.mode, ha.statuses, ha.kinds.trans hkinds.symm, ha.clean⟩
  constructor
  · intro hdone
    rw [hactive] at hdone
    obtain ⟨hnone, hterm⟩ := h.ended hdone
    refine ⟨hfinalizing.trans hnone, ?_⟩
    intro task hmem
    have hall := hover hterm
    obtain ⟨k, hk⟩ := List.getElem?_of_mem hmem
    have hlen := hall.length_eq
    have hlt : k < run'.taskRows.length := (List.getElem?_eq_some_iff.1 hk).1
    have hstays := hall.get (by omega) hlt
    rw [List.get_eq_getElem, List.get_eq_getElem, (List.getElem?_eq_some_iff.1 hk).2] at hstays
    exact hstays.terminal
  · intro statuses hs
    rcases hreads statuses hs with hread | he
    · have he := h.reads statuses hread
      exact he.mono (hover he.terminal)
    · exact he
  · intro f hf
    obtain ⟨hone, he, hstage⟩ := h.finalizing f (hfinalizing ▸ hf)
    refine ⟨hcount.trans hone, he.mono (hover he.terminal), ?_⟩
    unfold StageSound at hstage ⊢
    split at hstage
    · exact hstage
    · exact hstage
    · exact hauth _ _ hstage
    · exact ⟨hauth _ _ hstage.1, hstage.2⟩
    · exact ⟨hauth _ _ hstage.1, hstage.2⟩
  · intro hlive hnone
    rw [hcount]
    exact h.fresh (hactive ▸ hlive) (hfinalizing ▸ hnone)
  · intro hlive
    unfold AllSeen
    rw [haccepted]
    exact h.accepted (hactive ▸ hlive)

theorem Sound.takeTask (h : run.Sound i rows) {j : ℕ}
    {record record' : TaskRecord FindingPayload χ ρ}
    (hrecord : run.tasks[j]? = some record) {a : RecordAction FindingPayload χ ρ}
    (hstep : record.step a = some record') :
    ({ run with tasks := run.tasks.set j record', status := run.statusAfter record a } :
      ScanRun χ ρ).Sound i rows := by
  have hrow : run.taskRows[j]? = some record.db.task := by simp [taskRows, hrecord]
  refine h.moved (statusAfter_active run record a) rfl (fun _ hs => Or.inl hs) rfl rfl rfl ?_ ?_
  · have hkinds : (run.taskRows.map (·.kind))[j]? = some record'.db.task.kind := by
      simp [hrow, TaskRecord.step_kind hstep]
    obtain ⟨_, hkept⟩ := List.getElem?_eq_some_iff.1 hkinds
    simp only [taskRows, List.map_set] at hkept ⊢
    rw [← hkept, List.set_getElem_self]
  · intro hterm
    simp only [taskRows, List.map_set]
    apply forall₂_set (fun task hmem => .refl (hterm task hmem)) hrow
    exact TaskRecord.step_over (hterm _ (List.mem_of_getElem? hrow)) hstep

theorem Sound.of_quiet (hactive : run.status.Active) (hreads : run.reads = [])
    (hnone : run.finalizing = none) (hcount : run.finalizations = 0)
    (haccepted : run.AllSeen i rows) : run.Sound i rows where
  ended hover := by
    rw [hactive] at hover
    cases hover
  reads statuses hs := by
    rw [hreads] at hs
    cases hs
  finalizing f hf := by
    rw [hnone] at hf
    cases hf
  fresh _ _ := hcount
  accepted _ := haccepted

theorem cancelTask_terminal (db : Db χ ρ) : (cancelTask db).task.status.Terminal := by
  unfold cancelTask
  split_ifs with hterm
  · exact hterm
  · rfl

theorem Sound.cancelled (h : run.Sound i rows) (hnone : run.finalizing = none) :
    run.cancelled.Sound i rows where
  ended _ := by
    refine ⟨hnone, ?_⟩
    intro task hmem
    obtain ⟨record', hrecord', rfl⟩ := List.mem_map.1 hmem
    obtain ⟨record, _, rfl⟩ := List.mem_map.1 hrecord'
    exact cancelTask_terminal record.db
  reads statuses hs := by
    have he := h.reads statuses hs
    apply he.mono
    have hrows : run.cancelled.taskRows = run.taskRows := by
      simp only [ScanRun.cancelled, taskRows, List.map_map]
      apply List.map_congr_left
      intro record hmem
      have hterm : record.db.task.status.Terminal :=
        he.terminal _ (List.mem_map_of_mem hmem)
      change (cancelTask record.db).task = record.db.task
      rw [cancelTask, if_pos hterm]
    rw [hrows]
    exact List.forall₂_same.2 fun task hmem => .refl (he.terminal task hmem)
  finalizing f hf := by
    have hf' : f ∈ run.finalizing := hf
    rw [hnone] at hf'
    cases hf'
  fresh hactive := by
    simp only [ScanRun.cancelled] at hactive
    split_ifs at hactive with hlive
    · cases hactive
    · exact absurd hactive hlive
  accepted hactive := by
    simp only [ScanRun.cancelled] at hactive
    split_ifs at hactive with hlive
    · cases hactive
    · exact absurd hactive hlive

theorem Sound.advance (h : run.Sound i rows) {statuses : List ScanTaskStatus}
    {stage stage' : FinalizationStage χ ρ} (hf : run.finalizing = some { statuses, stage })
    (hkeys : SameKeys rows rows')
    (hstage : run.StageSound i rows' { statuses, stage := stage' }) :
    (run.advance statuses stage').Sound i rows' := by
  obtain ⟨hone, he, _⟩ := h.finalizing _ hf
  constructor
  · intro hover
    rw [(h.ended hover).1] at hf
    cases hf
  · exact h.reads
  · intro f hf'
    obtain rfl := Option.some.inj hf'
    refine ⟨hone, he, ?_⟩
    have hauth : ∀ tasks, run.Authorized statuses tasks →
        (run.advance statuses stage').Authorized statuses tasks :=
      fun tasks ha => ⟨ha.mode, ha.statuses, ha.kinds, ha.clean⟩
    unfold StageSound at hstage ⊢
    split at hstage
    · exact hstage
    · exact hstage
    · exact hauth _ hstage
    · exact ⟨hauth _ hstage.1, hstage.2⟩
    · exact ⟨hauth _ hstage.1, hstage.2⟩
  · intro _ hnone
    cases hnone
  · exact fun hactive => (h.accepted hactive).keep hkeys

theorem unseen_missing (hkeyed : Keyed rows) : Unseen i rows (missing i rows) := by
  intro id hid f hf hfid
  obtain ⟨g, hg, rfl⟩ := List.mem_map.1 hid
  obtain ⟨hmem, hsel⟩ := List.mem_filter.1 hg
  obtain rfl := hkeyed.eq_of_id hf hmem hfid
  simp only [Bool.and_eq_true, decide_eq_true_eq] at hsel
  exact hsel.1.2

theorem authorized_of_manifest {statuses : List ScanTaskStatus}
    (he : Evident statuses run.taskRows) (hfinal : finalStatus statuses = .completed)
    (hcomplete : (buildManifest (finalStatus statuses) run.taskRows).coverageState = .complete)
    (hmode : run.mode = .full) : run.Authorized statuses run.taskRows := by
  have hall := completed_of_finalStatus hfinal
  have hclean : ∀ task ∈ run.taskRows, ∃ r, storedTaskReport task = some r ∧
      r.payload.counts.skipped = 0 ∧ r.payload.counts.failed = 0 ∧ r.payload.scope.gaps = 0 :=
    fun _ hmem => clean_of_complete hcomplete hmem
  refine ⟨hmode, hall, rfl, fun task hmem => ⟨?_, hclean task hmem⟩⟩
  apply he.completed hall _ task hmem
  intro task hmem
  obtain ⟨r, hr, _, _, hgaps⟩ := hclean task hmem
  exact ⟨r, hr, hgaps⟩

/-- Only the conditional update touches the rows. -/
theorem finalize_rows {a : FinalizeAction} {out : List Finding × ScanRun χ ρ}
    (hout : run.finalize i rows a = some out) :
    out.1 = rows ∨ ∃ statuses tasks id rest, a = .resolve ∧
      run.finalizing = some { statuses, stage := .resolving tasks (id :: rest) } ∧
      out.1 = rows.map (autoResolve id) := by
  cases a with
  | read =>
      simp only [ScanRun.finalize] at hout
      split_ifs at hout
      obtain rfl := Option.some.inj hout
      exact Or.inl rfl
  | update k =>
      simp only [ScanRun.finalize] at hout
      obtain ⟨statuses, _, hout⟩ := Option.bind_eq_some_iff.1 hout
      split_ifs at hout
      obtain rfl := Option.some.inj hout
      exact Or.inl rfl
  | resolve =>
      simp only [ScanRun.finalize] at hout
      split at hout
      · rename_i statuses tasks id rest hf
        obtain rfl := Option.some.inj hout
        exact Or.inr ⟨statuses, tasks, id, rest, rfl, hf, rfl⟩
      · cases hout
  | _ =>
      simp only [ScanRun.finalize] at hout
      split at hout <;> cases hout <;> exact Or.inl rfl

/-- The end of a finalization: the status is final and every task is over. -/
theorem Sound.settled (h : run.Sound i rows) {f : Finalization χ ρ}
    (hf : run.finalizing = some f) :
    ({ run with status := finalStatus f.statuses, finalizing := none } :
      ScanRun χ ρ).Sound i rows := by
  have hterm := (h.finalizing _ hf).2.1.terminal
  have hover := finalStatus_not_active f.statuses
  constructor
  · exact fun _ => ⟨rfl, hterm⟩
  · exact h.reads
  · intro f' hf'
    cases hf'
  · intro hactive
    rw [hover] at hactive
    cases hactive
  · intro hactive
    rw [hover] at hactive
    cases hactive

theorem Authorized.fetch {statuses : List ScanTaskStatus} {tasks : List (ScanTask χ ρ)}
    (h : run.Authorized statuses tasks) (hfetch : run.tasks.any (·.db.task.kind = .fetch)) :
    ∃ task ∈ tasks, task.kind = .fetch := by
  obtain ⟨record, hmem, hkind⟩ := List.any_eq_true.1 hfetch
  have hin : ScanTaskKind.fetch ∈ tasks.map (·.kind) := by
    rw [h.kinds, taskRows, List.map_map]
    exact List.mem_map.2 ⟨record, hmem, of_decide_eq_true hkind⟩
  obtain ⟨task, hmem', hfetch'⟩ := List.mem_map.1 hin
  exact ⟨task, hmem', hfetch'⟩

theorem Sound.finalize (h : run.Sound i rows) (hkeyed : Keyed rows) {a : FinalizeAction}
    {out : List Finding × ScanRun χ ρ} (hout : run.finalize i rows a = some out) :
    out.2.Sound i out.1 ∧ out.2.sourceId = run.sourceId ∧
      (out.2.status.Active → run.status.Active) := by
  have hself : SameKeys rows rows := fun f hf => ⟨f, hf, rfl, rfl, rfl⟩
  cases a with
  | read =>
      simp only [ScanRun.finalize] at hout
      split_ifs at hout with hdone
      obtain rfl := Option.some.inj hout
      refine ⟨h.moved rfl rfl ?_ rfl rfl rfl rfl ?_, rfl, fun hactive => hactive⟩
      swap
      · exact fun hterm => List.forall₂_same.2 fun task hmem => .refl (hterm task hmem)
      intro statuses hs
      rcases List.mem_append.1 hs with hs | hs
      · exact Or.inl hs
      · right
        have hread : statuses = run.taskRows.map (·.status) := by
          rw [List.mem_singleton.1 hs]
          simp only [ScanRun.statuses, taskRows, List.map_map]
          rfl
        rw [hread]
        apply Evident.of_tasks
        · simpa [taskRows] using hdone.1
        · simpa [ScanRun.statuses, taskRows] using hdone.2
  | update k =>
      simp only [ScanRun.finalize] at hout
      obtain ⟨statuses, hread, hout⟩ := Option.bind_eq_some_iff.1 hout
      split_ifs at hout with hfree
      obtain rfl := Option.some.inj hout
      have hnone := Option.isNone_iff_eq_none.1 hfree.2
      refine ⟨⟨?_, h.reads, ?_, ?_, h.accepted⟩, rfl, fun hactive => hactive⟩
      · intro hover
        have hactive := hfree.1
        rw [hover] at hactive
        cases hactive
      · intro f hf
        obtain rfl := Option.some.inj hf
        refine ⟨?_, h.reads statuses (List.mem_of_getElem? hread), trivial⟩
        change run.finalizations + 1 = 1
        rw [h.fresh hfree.1 hnone]
      · intro _ hnew
        cases hnew
  | manifest =>
      simp only [ScanRun.finalize] at hout
      split at hout
      · rename_i statuses hf
        obtain rfl := Option.some.inj hout
        refine ⟨h.advance hf hself ?_, rfl, fun hactive => hactive⟩
        split_ifs with hopen
        · exact authorized_of_manifest (h.finalizing _ hf).2.1 hopen.1 hopen.2.1 hopen.2.2
        · trivial
      · cases hout
  | select =>
      simp only [ScanRun.finalize] at hout
      split at hout
      · rename_i statuses tasks hf
        obtain rfl := Option.some.inj hout
        refine ⟨h.advance hf hself ⟨(h.finalizing _ hf).2.2, unseen_missing hkeyed⟩, rfl,
          fun hactive => hactive⟩
      · cases hout
  | count =>
      simp only [ScanRun.finalize] at hout
      split at hout
      · rename_i statuses tasks missing hf
        obtain rfl := Option.some.inj hout
        obtain ⟨hauth, hunseen⟩ := (h.finalizing _ hf).2.2
        refine ⟨h.advance hf hself ?_, rfl, fun hactive => hactive⟩
        split_ifs with hempty
        · trivial
        · refine ⟨hauth, hunseen, fun hsome => hauth.fetch ?_⟩
          by_contra hnot
          exact hempty ⟨hsome, hnot⟩
      · cases hout
  | resolve =>
      simp only [ScanRun.finalize] at hout
      split at hout
      · rename_i statuses tasks id rest hf
        obtain rfl := Option.some.inj hout
        obtain ⟨hauth, hunseen, hfetch⟩ := (h.finalizing _ hf).2.2
        have hkeys : SameKeys rows (rows.map (autoResolve id)) :=
          .of_map (Triage.keepsKeys_autoResolve id) rows
        refine ⟨h.advance hf hkeys ⟨hauth, ?_, fun _ => hfetch (List.cons_ne_nil _ _)⟩,
          rfl, fun hactive => hactive⟩
        exact Unseen.keep (fun id' hid' => hunseen id' (List.mem_cons_of_mem _ hid')) hkeys
      · cases hout
  | commit =>
      have hstays : ∀ statuses : List ScanTaskStatus, (finalStatus statuses).Active →
          run.status.Active := by
        intro statuses hactive
        rw [finalStatus_not_active] at hactive
        cases hactive
      simp only [ScanRun.finalize] at hout
      split at hout
      · rename_i hf
        obtain rfl := Option.some.inj hout
        exact ⟨h.settled hf, rfl, hstays _⟩
      · rename_i hf
        obtain rfl := Option.some.inj hout
        exact ⟨h.settled hf, rfl, hstays _⟩
      · cases hout

end ScanRun

theorem ingestFinding_resolved {rules : List SuppressionRule} {scanId now : ℕ} {rows : List Finding}
    {p : FindingPayload} {f : Finding} (hf : f ∈ ingestFinding rules scanId now rows p)
    (hresolved : f.state = .resolved) : f ∈ rows := by
  unfold ingestFinding at hf
  dsimp only at hf
  split at hf
  · rcases List.mem_append.1 hf with hf | hf
    · exact hf
    · rw [List.mem_singleton.1 hf] at hresolved
      simp [create] at hresolved
  · obtain ⟨old, hold, rfl⟩ := List.mem_map.1 hf
    split_ifs at hresolved ⊢ with hid
    · rw [refresh_state] at hresolved
      split_ifs at hresolved
      contradiction
    · exact hold

theorem ingestFindings_resolved {suppressions : List Suppression} {sourceId scanId now : ℕ}
    {threshold : ℚ} {rows : List Finding} {payloads : List FindingPayload} {f : Finding}
    (hf : f ∈ ingestFindings suppressions sourceId scanId now threshold rows payloads)
    (hresolved : f.state = .resolved) : f ∈ rows := by
  unfold ingestFindings at hf
  generalize payloads.filter (fun p => p.Scored threshold) = scored at hf
  induction scored generalizing rows with
  | nil => exact hf
  | cons p scored ih => exact ingestFinding_resolved (ih hf) hresolved

theorem triageTo_manual {target : FindingState} {f : Finding} (hopen : f.state = .opened)
    (hresolved : (triageTo target f).state = .resolved) :
    (triageTo target f).resolution = some .manual := by
  unfold triageTo at hresolved ⊢
  split_ifs at hresolved ⊢ with _ htarget
  · rfl
  · exact absurd hresolved htarget
  · rw [hopen] at hresolved
    cases hresolved

/-- Triage, suppressions and the lapse sweep keep the keys, and resolve by hand only. -/
theorem FindingWrite.apply_eq (a : FindingWrite) (sourceId : ℕ) : ∃ g, KeepsKeys g ∧
    (∀ f, f.state = .opened → (g f).state = .resolved → (g f).resolution = some .manual) ∧
      ∀ rows, a.apply sourceId rows = rows.map g := by
  have hquiet : ∀ g : Finding → Finding, (∀ f, (g f).state = f.state) →
      ∀ f, f.state = .opened → (g f).state = .resolved → (g f).resolution = some .manual := by
    intro g hg f hopen hresolved
    rw [hg, hopen] at hresolved
    cases hresolved
  have hrelease : ∀ f, (release f).state = f.state := by
    intro f
    unfold release
    split_ifs <;> rfl
  have hhand : ∀ rules f, (handOver rules f).state = f.state := by
    intro rules f
    unfold handOver
    split
    · rfl
    · exact hrelease f
  cases a with
  | triage id target =>
      refine ⟨_, (Triage.keepsKeys_triageTo target).ite (·.id = id), ?_, fun rows => rfl⟩
      intro f hopen
      by_cases hid : f.id = id
      · rw [if_pos hid]
        exact triageTo_manual hopen
      · rw [if_neg hid, hopen]
        exact fun hresolved => (by cases hresolved)
  | suppress s now =>
      refine ⟨_, (Triage.keepsKeys_suppress s.toSuppressionRule now).ite
        (fun f => s.Covers sourceId f = true), hquiet _ ?_, fun rows => rfl⟩
      intro f
      split_ifs <;> rfl
  | unsuppress suppressions s now =>
      refine ⟨_, (keepsKeys_handOver _).ite (·.suppressedById = some s.id), hquiet _ ?_,
        fun rows => rfl⟩
      intro f
      split_ifs
      · exact hhand _ f
      · rfl
  | lapse suppressions now =>
      refine ⟨_, (keepsKeys_handOver _).ite _, hquiet _ ?_, fun rows => rfl⟩
      intro f
      split_ifs
      · exact hhand _ f
      · rfl

namespace Deployment

structure Sound (w : Deployment χ ρ) : Prop where
  keyed : ∀ s, Keyed (w.findings s)
  single : ∀ (i j : ℕ) (run run' : ScanRun χ ρ), w.scans[i]? = some run → w.scans[j]? = some run' →
    run.sourceId = run'.sourceId → run.status.Active → run'.status.Active → i = j
  runs : ∀ (i : ℕ) (run : ScanRun χ ρ), w.scans[i]? = some run →
    run.Sound i (w.findings run.sourceId)

variable {w w' : Deployment χ ρ} {i : ℕ} {run run' : ScanRun χ ρ} {rows' : List Finding}

theorem store_self (w : Deployment χ ρ) (s : ℕ) : w.store s (w.findings s) = w := by
  simp [store]

theorem Sound.put (hs : w.Sound) (hrun : w.scans[i]? = some run)
    (hsource : run'.sourceId = run.sourceId)
    (hactive : run'.status.Active → run.status.Active) (hkeyed : Keyed rows')
    (hsound : run'.Sound i rows')
    (hothers : ∀ (k : ℕ) (other : ScanRun χ ρ), k ≠ i → w.scans[k]? = some other →
      other.sourceId = run.sourceId → other.Sound k rows') :
    ((w.store run.sourceId rows').put i run').Sound := by
  have hlt : i < w.scans.length := (List.getElem?_eq_some_iff.1 hrun).1
  have hscans : ∀ (k : ℕ) (r : ScanRun χ ρ), (w.scans.set i run')[k]? = some r →
      (k = i ∧ r = run') ∨ (k ≠ i ∧ w.scans[k]? = some r) := by
    intro k r hr
    rw [List.getElem?_set] at hr
    split_ifs at hr with hki
    · exact Or.inl ⟨hki.symm, (Option.some.inj hr).symm⟩
    · exact Or.inr ⟨fun heq => hki heq.symm, hr⟩
  constructor
  · intro s
    simp only [Deployment.put, store, Function.update_apply]
    split_ifs
    · exact hkeyed
    · exact hs.keyed s
  · intro k l r r' hr hr' hsame hlive hlive'
    -- the scan before the step, active if the one after it is
    have hbefore : ∀ (k : ℕ) (r : ScanRun χ ρ), (w.scans.set i run')[k]? = some r →
        r.status.Active → ∃ old : ScanRun χ ρ, w.scans[k]? = some old ∧
          old.sourceId = r.sourceId ∧ old.status.Active := by
      intro k r hr hlive
      rcases hscans k r hr with ⟨rfl, rfl⟩ | ⟨_, hold⟩
      · exact ⟨run, hrun, hsource.symm, hactive hlive⟩
      · exact ⟨r, hold, rfl, hlive⟩
    obtain ⟨old, hold, holdSource, holdLive⟩ := hbefore k r hr hlive
    obtain ⟨old', hold', holdSource', holdLive'⟩ := hbefore l r' hr' hlive'
    exact hs.single k l old old' hold hold'
      (holdSource.trans (hsame.trans holdSource'.symm)) holdLive holdLive'
  · intro k r hr
    simp only [Deployment.put, store, Function.update_apply]
    rcases hscans k r hr with ⟨rfl, rfl⟩ | ⟨hne, hold⟩
    · rw [if_pos hsource]
      exact hsound
    · split_ifs with hsame
      · exact hothers k r hne hold hsame
      · exact hs.runs k r hold

theorem Sound.put_run (hs : w.Sound) (hrun : w.scans[i]? = some run)
    (hsource : run'.sourceId = run.sourceId) (hactive : run'.status.Active → run.status.Active)
    (hsound : run'.Sound i (w.findings run.sourceId)) : (w.put i run').Sound := by
  have hput := hs.put hrun hsource hactive (hs.keyed run.sourceId) hsound
    fun k other _ hother hsame => hsame ▸ hs.runs k other hother
  rwa [store_self] at hput

theorem allSeen_nil {i : ℕ} {rows : List Finding} (h : run.accepted = []) : run.AllSeen i rows := by
  intro p hp
  rw [h] at hp
  cases hp

theorem Sound.launch (hs : w.Sound) {sourceId : ℕ} {mode : ScanMode} {scan : Scan}
    (hfree : ∀ run ∈ w.scans, run.sourceId = sourceId → run.status.Active = false) :
    Sound { w with
      scans := w.scans ++ [{ sourceId, mode, tasks := [.start scan 0 .discovery] }] } := by
  have hscans : ∀ (k : ℕ) (r : ScanRun χ ρ),
      (w.scans ++ [{ sourceId, mode, tasks := [.start scan 0 .discovery] }])[k]? = some r →
      (w.scans[k]? = some r) ∨
        (k = w.scans.length ∧ r = { sourceId, mode, tasks := [.start scan 0 .discovery] }) := by
    intro k r hr
    rcases Nat.lt_or_ge k w.scans.length with hlt | hge
    · rw [List.getElem?_append_left hlt] at hr
      exact Or.inl hr
    · rw [List.getElem?_append_right hge] at hr
      obtain ⟨hk, hr⟩ := List.getElem?_eq_some_iff.1 hr
      simp only [List.length_singleton, Nat.lt_one_iff] at hk
      have hlast : k = w.scans.length := by omega
      subst hlast
      simp only [Nat.sub_self, List.getElem_cons_zero] at hr
      exact Or.inr ⟨rfl, hr.symm⟩
  constructor
  · exact hs.keyed
  · intro k l r r' hr hr' hsame hlive hlive'
    rcases hscans k r hr with hold | ⟨rfl, rfl⟩ <;> rcases hscans l r' hr' with hold' | ⟨rfl, rfl⟩
    · exact hs.single k l r r' hold hold' hsame hlive hlive'
    · rw [hfree r (List.mem_of_getElem? hold) hsame] at hlive
      cases hlive
    · rw [hfree r' (List.mem_of_getElem? hold') hsame.symm] at hlive'
      cases hlive'
    · rfl
  · intro k r hr
    rcases hscans k r hr with hold | ⟨rfl, rfl⟩
    · exact hs.runs k r hold
    · exact .of_quiet rfl rfl rfl rfl (allSeen_nil rfl)

theorem Sound.accept (hs : w.Sound) (hrun : w.scans[i]? = some run)
    (hlive : run'.status.Active ∧ run'.reads = [] ∧ run'.finalizing = none)
    (hsource : run'.sourceId = run.sourceId) (hactive : run.status.Active)
    (hsound : run'.Sound i (w.findings run.sourceId)) (record : TaskRecord FindingPayload χ ρ)
    (context : IngestContext) (findings : List FindingPayload) (specs : List TaskSpec) :
    (w.accept i run' record context findings specs).Sound := by
  obtain ⟨hrunning, hreads, hnone⟩ := hlive
  have hcount := hsound.fresh hrunning hnone
  have hseen := hsound.accepted hrunning
  unfold Deployment.accept
  split_ifs with hkind
  · apply hs.put_run hrun
    · unfold ScanRun.createFetchTasks
      split_ifs <;> exact hsource
    · exact fun _ => hactive
    · unfold ScanRun.createFetchTasks
      split_ifs
      · exact .of_quiet rfl hreads hnone hcount hseen
      · exact hsound
  · rw [hsource]
    obtain ⟨hkeyed, hold, hnew⟩ := ingestFindings_spec (hs.keyed run.sourceId)
      context.suppressions run.sourceId i context.now context.threshold findings
    refine hs.put hrun rfl (fun _ => hactive) hkeyed ?_ ?_
    · refine ScanRun.Sound.of_quiet hrunning hreads hnone hcount ?_
      intro p hp hscored f hf hfp
      rcases List.mem_append.1 hp with hp | hp
      · rcases hold f hf with hf | hsaw
        · exact hseen p hp hscored f hf hfp
        · exact hsaw
      · obtain ⟨payload, hpayload, rfl⟩ := List.mem_map.1 hp
        exact hnew payload hpayload hscored f hf hfp
    · intro k other hne hother hsame
      refine (hs.runs k other hother).inactive (Bool.eq_false_iff.2 fun hother' => hne ?_) _
      exact hs.single k i other run hother hrun hsame hother' hactive

theorem Sound.takeTask (hs : w.Sound) (hrun : w.scans[i]? = some run) {j : ℕ}
    {record : TaskRecord FindingPayload χ ρ} (hrecord : run.tasks[j]? = some record)
    {a : RecordAction FindingPayload χ ρ} {context : IngestContext}
    (h : w.takeTask i j run record a context = some w') : w'.Sound := by
  unfold Deployment.takeTask at h
  split_ifs at h
  obtain ⟨record', hstep, rfl⟩ := Option.map_eq_some_iff.1 h
  have hsound := (hs.runs i run hrun).takeTask hrecord hstep
  have hsame := ScanRun.statusAfter_active run record a
  dsimp only
  cases haccepted : a.accepted record with
  | none =>
      refine hs.put_run hrun rfl ?_ hsound
      intro hactive
      exact hsame ▸ hactive
  | some submission =>
      -- an accepted submission comes from a task that is not over
      have hlive : ¬ record.db.task.status.Terminal := by
        intro hterm
        rw [TaskRecord.accepted_eq_none hterm a] at haccepted
        cases haccepted
      have hmem : record.db.task ∈ run.taskRows :=
        List.mem_map_of_mem (List.mem_of_getElem? hrecord)
      obtain ⟨hactive, hreads, hnone⟩ := (hs.runs i run hrun).live hmem hlive
      obtain ⟨findings, specs⟩ := submission
      have hafter := hsame.trans hactive
      have haccept : ∀ run' : ScanRun χ ρ, run'.status.Active → run'.reads = run.reads →
          run'.finalizing = run.finalizing → run'.sourceId = run.sourceId →
          run'.Sound i (w.findings run.sourceId) →
          (w.accept i run' record' context findings specs).Sound :=
        fun run' h₁ h₂ h₃ h₄ h₅ =>
          hs.accept hrun ⟨h₁, h₂.trans hreads, h₃.trans hnone⟩ h₄ hactive h₅ record' context _ _
      exact haccept _ hafter rfl rfl rfl hsound

theorem Sound.write (hs : w.Sound) (sourceId : ℕ) (a : FindingWrite) :
    (w.store sourceId (a.apply sourceId (w.findings sourceId))).Sound := by
  obtain ⟨g, hg, _, happly⟩ := a.apply_eq sourceId
  rw [happly]
  constructor
  · intro s
    simp only [store, Function.update_apply]
    split_ifs with hsame
    · exact hg.keyed (hs.keyed sourceId)
    · exact hs.keyed s
  · exact hs.single
  · intro k run hrun
    simp only [store, Function.update_apply]
    split_ifs with hsame
    · exact (hsame ▸ hs.runs k run hrun).keep (.of_map hg _)
    · exact hs.runs k run hrun

theorem Sound.step (hs : w.Sound) {a : DeploymentAction χ ρ} (h : w.step a = some w') :
    w'.Sound := by
  cases a with
  | launch sourceId mode scan =>
      simp only [Deployment.step] at h
      split_ifs at h with hbusy
      obtain rfl := Option.some.inj h
      apply hs.launch
      intro run hmem hsource
      by_contra hactive
      apply hbusy
      rw [List.any_eq_true]
      refine ⟨run, hmem, ?_⟩
      simpa [hsource] using hactive
  | task i j a context =>
      obtain ⟨run, hrun, h⟩ := Option.bind_eq_some_iff.1 h
      obtain ⟨record, hrecord, h⟩ := Option.bind_eq_some_iff.1 h
      exact hs.takeTask hrun hrecord h
  | cancel i =>
      obtain ⟨run, hrun, h⟩ := Option.bind_eq_some_iff.1 h
      split_ifs at h with hbusy
      obtain rfl := Option.some.inj h
      have hnone : run.finalizing = none := by simpa using hbusy
      refine hs.put_run hrun rfl ?_ ((hs.runs i run hrun).cancelled hnone)
      intro hactive
      simp only [ScanRun.cancelled] at hactive
      split_ifs at hactive with hlive
      · exact hlive
      · exact hactive
  | finalize i a =>
      obtain ⟨run, hrun, h⟩ := Option.bind_eq_some_iff.1 h
      obtain ⟨out, hout, rfl⟩ := Option.map_eq_some_iff.1 h
      have hkeyed := hs.keyed run.sourceId
      obtain ⟨hsound, hsource, hactive⟩ := (hs.runs i run hrun).finalize hkeyed hout
      rcases ScanRun.finalize_rows hout with hsame | ⟨_, _, id, _, _, _, hresolved⟩
      · rw [hsame] at hsound ⊢
        exact hs.put hrun hsource hactive hkeyed hsound
          fun k other _ hother hsame => hsame ▸ hs.runs k other hother
      · rw [hresolved] at hsound ⊢
        have hkeys := Triage.keepsKeys_autoResolve id
        exact hs.put hrun hsource hactive (hkeys.keyed hkeyed) hsound
          fun k other _ hother hsame => (hsame ▸ hs.runs k other hother).keep (.of_map hkeys _)
  | write sourceId a =>
      obtain rfl := Option.some.inj h
      exact hs.write sourceId a

theorem sound_of_reachable {guard : Deployment χ ρ → DeploymentAction χ ρ → Prop}
    (hw : Machine.Reachable step guard IsInitial w) : w.Sound := by
  apply hw.invariant
  · rintro w ⟨hnone, hkeyed⟩
    refine ⟨hkeyed, ?_, ?_⟩
    · intro i j run run' hrun
      rw [hnone] at hrun
      cases hrun
    · intro i run hrun
      rw [hnone] at hrun
      cases hrun
  · intro w a w' hs _ hstep
    exact hs.step hstep

theorem accept_findings (w : Deployment χ ρ) (i : ℕ) (run : ScanRun χ ρ)
    (record : TaskRecord FindingPayload χ ρ) (context : IngestContext)
    (findings : List FindingPayload) (specs : List TaskSpec) (s : ℕ) {f : Finding}
    (hf : f ∈ (w.accept i run record context findings specs).findings s)
    (hresolved : f.state = .resolved) : f ∈ w.findings s := by
  unfold Deployment.accept at hf
  split_ifs at hf
  · exact hf
  · simp only [Deployment.put, store, Function.update_apply] at hf
    split_ifs at hf with hsame
    · rw [hsame]
      exact ingestFindings_resolved hf hresolved
    · exact hf

/-- Nothing becomes resolved, or by hand only, or by the update of a finalization. -/
theorem step_findings {a : DeploymentAction χ ρ} (h : w.step a = some w') (s : ℕ) :
    (∀ f ∈ w'.findings s, f.state = .resolved → f ∈ w.findings s) ∨
    (∃ g, KeepsKeys g ∧
      (∀ f, f.state = .opened → (g f).state = .resolved → (g f).resolution = some .manual) ∧
      w'.findings s = (w.findings s).map g) ∨
    ∃ (i : ℕ) (run : ScanRun χ ρ) (statuses : List ScanTaskStatus) (tasks : List (ScanTask χ ρ))
      (id : ℕ) (rest : List ℕ), a = .finalize i .resolve ∧ w.scans[i]? = some run ∧
      run.sourceId = s ∧
      run.finalizing = some { statuses, stage := .resolving tasks (id :: rest) } ∧
      w'.findings s = (w.findings s).map (autoResolve id) := by
  cases a with
  | launch sourceId mode scan =>
      simp only [Deployment.step] at h
      split_ifs at h
      obtain rfl := Option.some.inj h
      exact Or.inl fun f hf _ => hf
  | task i j a context =>
      obtain ⟨run, _, h⟩ := Option.bind_eq_some_iff.1 h
      obtain ⟨record, _, h⟩ := Option.bind_eq_some_iff.1 h
      unfold Deployment.takeTask at h
      split_ifs at h
      obtain ⟨record', _, rfl⟩ := Option.map_eq_some_iff.1 h
      left
      intro f hf hresolved
      dsimp only at hf
      cases haccepted : a.accepted record with
      | none =>
          rw [haccepted] at hf
          exact hf
      | some submission =>
          rw [haccepted] at hf
          exact accept_findings w _ _ _ _ _ _ s hf hresolved
  | cancel i =>
      obtain ⟨run, _, h⟩ := Option.bind_eq_some_iff.1 h
      split_ifs at h
      obtain rfl := Option.some.inj h
      exact Or.inl fun f hf _ => hf
  | finalize i a =>
      obtain ⟨run, hrun, h⟩ := Option.bind_eq_some_iff.1 h
      obtain ⟨out, hout, rfl⟩ := Option.map_eq_some_iff.1 h
      by_cases hsame : s = run.sourceId
      · subst hsame
        have hnow : ((w.store run.sourceId out.1).put i out.2).findings run.sourceId = out.1 := by
          simp [Deployment.put, store]
        rw [hnow]
        rcases ScanRun.finalize_rows hout with hrows | ⟨statuses, tasks, id, rest, rfl, hf, hrows⟩
        · rw [hrows]
          exact Or.inl fun f hf _ => hf
        · exact Or.inr (Or.inr ⟨i, run, statuses, tasks, id, rest, rfl, hrun, rfl, hf, hrows⟩)
      · left
        intro f hf _
        simpa [Deployment.put, store, Function.update_apply, hsame] using hf
  | write sourceId a =>
      obtain rfl := Option.some.inj h
      obtain ⟨g, hg, hmanual, happly⟩ := a.apply_eq sourceId
      by_cases hsame : s = sourceId
      · subst hsame
        right
        left
        refine ⟨g, hg, hmanual, ?_⟩
        rw [← happly]
        simp [store]
      · left
        intro f hf _
        simpa [store, Function.update_apply, hsame] using hf

/-- An open finding is resolved automatically only by the conditional update of the one
finalization of a full scan of its source, authorized by what that finalization has read,
with a fetch task, and no submission of the scan has stored the finding. -/
theorem auto_resolution_gate (hw : Machine.Reachable step (fun _ _ => True) IsInitial w)
    {a : DeploymentAction χ ρ} (hstep : w.step a = some w') {s : ℕ} {f f' : Finding}
    (hf : f ∈ w.findings s) (hf' : f' ∈ w'.findings s) (hid : f'.id = f.id)
    (hopen : f.state = .opened) (hresolved : f'.state = .resolved)
    (hauto : f'.resolution = some .auto) :
    ∃ (i : ℕ) (run : ScanRun χ ρ) (statuses : List ScanTaskStatus) (tasks : List (ScanTask χ ρ))
      (rest : List ℕ), a = .finalize i .resolve ∧ w.scans[i]? = some run ∧ run.sourceId = s ∧
      run.finalizing = some { statuses, stage := .resolving tasks (f.id :: rest) } ∧
      run.finalizations = 1 ∧ run.Authorized statuses tasks ∧
      (∃ task ∈ tasks, task.kind = .fetch) ∧
      ∀ p ∈ run.accepted, p.1.Scored p.2 → p.1.fingerprint ≠ f.fingerprint := by
  have hs := sound_of_reachable hw
  rcases step_findings hstep s with hkept | ⟨g, hg, hmanual, hrows⟩ |
    ⟨i, run, statuses, tasks, id, rest, rfl, hrun, rfl, hfinalizing, hrows⟩
  · obtain rfl := (hs.keyed s).eq_of_id (hkept f' hf' hresolved) hf hid
    rw [hopen] at hresolved
    cases hresolved
  · rw [hrows] at hf'
    obtain ⟨old, hold, rfl⟩ := List.mem_map.1 hf'
    obtain rfl := (hs.keyed s).eq_of_id hold hf ((hg.id old).symm.trans hid)
    rw [hmanual old hopen hresolved] at hauto
    cases hauto
  · rw [hrows] at hf'
    obtain ⟨old, hold, rfl⟩ := List.mem_map.1 hf'
    have hkeys := Triage.keepsKeys_autoResolve id
    obtain rfl := (hs.keyed _).eq_of_id hold hf ((hkeys.id old).symm.trans hid)
    have hnow : old.id = id := by
      by_contra hother
      rw [autoResolve, if_neg fun h => hother h.1, hopen] at hresolved
      cases hresolved
    obtain rfl := hnow
    have hsound := hs.runs i run hrun
    obtain ⟨hone, _, hauth, hunseen, hfetch⟩ := hsound.finalizing _ hfinalizing
    have hactive : run.status.Active := by
      by_contra hover
      rw [(hsound.ended (Bool.eq_false_iff.2 hover)).1] at hfinalizing
      cases hfinalizing
    refine ⟨i, run, statuses, tasks, rest, rfl, hrun, rfl, hfinalizing, hone, hauth,
      hfetch (List.cons_ne_nil _ _), ?_⟩
    intro p hp hscored hfp
    have hsaw := hsound.accepted hactive p hp hscored old hold hfp.symm
    exact hunseen old.id List.mem_cons_self old hold rfl hsaw

/-! A full scan of a source with one open finding: a discovery, a fetch, and the finalization
up to the update of the row. -/

def staleKey : Finding where
  id := 1
  fingerprint := "f1"
  secretHash := "h1"
  ruleId := "aws-key"
  lastSeenScanId := 7

def resolvedKey : Finding := { staleKey with state := .resolved, resolution := some .auto }

def oneFinding : Deployment ℕ ℕ where
  findings s := if s = 0 then [staleKey] else []

theorem isInitial_oneFinding : oneFinding.IsInitial := by
  refine ⟨rfl, fun s => ?_⟩
  unfold oneFinding
  by_cases hs : s = 0
  · simp only [hs, if_true]
    exact ⟨by simp, by simp⟩
  · simp only [hs, if_false]
    exact ⟨List.nodup_nil, List.nodup_nil⟩

def discoveryReport : ResultsSubmission FindingPayload ℕ where
  idempotencyKey := ⟨0, 1⟩
  status := .completed
  taskSpecs := [{ label := "OPS" }]
  coverage := some (SourceWorld.plainCoverage .discovery 0 1)

def fetchReport (findings : List FindingPayload) : ResultsSubmission FindingPayload ℕ where
  idempotencyKey := ⟨1, 1⟩
  status := .completed
  findings
  coverage := some (SourceWorld.plainCoverage .fetch 1 0)

def scanThatReports (findings : List FindingPayload) : List (DeploymentAction ℕ ℕ) :=
  let context : IngestContext := { threshold := 1 / 2 }
  [.launch 0 .full {}, .task 0 0 (.lease 1) context,
    .task 0 0 (.results 1 1 discoveryReport) context,
    .task 0 1 (.lease 1) context, .task 0 1 (.results 1 1 (fetchReport findings)) context,
    .finalize 0 .read, .finalize 0 (.update 0), .finalize 0 .manifest, .finalize 0 .select,
    .finalize 0 .count]

def faintKey : FindingPayload where
  fingerprint := "f1"
  secretHash := "h1"
  ruleId := "aws-key"
  confidence := some (1 / 4)

theorem auto_resolution_gate_of_an_unseen_finding : ∃ (w : Deployment ℕ ℕ) (run : ScanRun ℕ ℕ)
    (statuses : List ScanTaskStatus) (tasks : List (ScanTask ℕ ℕ)) (rest : List ℕ),
    w.scans[0]? = some run ∧
      run.finalizing = some { statuses, stage := .resolving tasks (1 :: rest) } ∧
      run.Authorized statuses tasks ∧ ∃ task ∈ tasks, task.kind = .fetch := by
  have hrun : (Machine.run step (fun _ _ => True) oneFinding (scanThatReports [])).any fun w =>
      decide (staleKey ∈ w.findings 0) && (w.step (.finalize 0 .resolve)).any fun w' =>
        w'.findings 0 = [resolvedKey] := by
    decide
  obtain ⟨w, hw, hobs⟩ := (Option.any_eq_true _ _).1 hrun
  obtain ⟨hnow, hnext⟩ := Bool.and_eq_true_iff.1 hobs
  obtain ⟨w', hstep, hrows⟩ := (Option.any_eq_true _ _).1 hnext
  have hstart : Machine.Reachable step (fun _ _ => True) IsInitial oneFinding :=
    .start isInitial_oneFinding
  have hmem : resolvedKey ∈ w'.findings 0 := by
    rw [of_decide_eq_true hrows]
    exact List.mem_singleton_self _
  obtain ⟨i, run, statuses, tasks, rest, ha, hscan, _, hfinalizing, _, hauth, hfetch, _⟩ :=
    auto_resolution_gate (hstart.run hw) hstep (of_decide_eq_true hnow) hmem rfl rfl rfl rfl
  obtain ⟨rfl, _⟩ := DeploymentAction.finalize.inj ha
  exact ⟨w, run, statuses, tasks, rest, hscan, hfinalizing, hauth, hfetch⟩

/-- A submission that was accepted reports the finding below the threshold; ingest drops it
and the finding is resolved. -/
theorem auto_resolved_though_reported : ∃ (w w' : Deployment ℕ ℕ) (run : ScanRun ℕ ℕ)
    (f f' : Finding), Machine.Reachable step (fun _ _ => True) IsInitial w ∧
      w.step (.finalize 0 .resolve) = some w' ∧ f ∈ w.findings 0 ∧ f' ∈ w'.findings 0 ∧
      f'.id = f.id ∧ f.state = .opened ∧ f'.state = .resolved ∧ f'.resolution = some .auto ∧
      w.scans[0]? = some run ∧ ∃ p ∈ run.accepted, p.1.fingerprint = f.fingerprint := by
  have hrun : (Machine.run step (fun _ _ => True) oneFinding (scanThatReports [faintKey])).any
      fun w => decide (staleKey ∈ w.findings 0) &&
        ((w.step (.finalize 0 .resolve)).any fun w' =>
          w'.findings 0 = [resolvedKey]) &&
        (w.scans[0]?).any fun run => ∃ p ∈ run.accepted, p.1.fingerprint = "f1" := by
    decide +kernel
  obtain ⟨w, hw, hobs⟩ := (Option.any_eq_true _ _).1 hrun
  obtain ⟨hboth, hscan⟩ := Bool.and_eq_true_iff.1 hobs
  obtain ⟨hnow, hnext⟩ := Bool.and_eq_true_iff.1 hboth
  obtain ⟨w', hstep, hrows⟩ := (Option.any_eq_true _ _).1 hnext
  obtain ⟨run, hrun', haccepted⟩ := (Option.any_eq_true _ _).1 hscan
  have hstart : Machine.Reachable step (fun _ _ => True) IsInitial oneFinding :=
    .start isInitial_oneFinding
  refine ⟨w, w', run, staleKey, resolvedKey, hstart.run hw, hstep, of_decide_eq_true hnow, ?_, rfl,
    rfl, rfl, rfl, hrun', of_decide_eq_true haccepted⟩
  rw [of_decide_eq_true hrows]
  exact List.mem_singleton_self _

end Deployment

end IcebergSST
