import IcebergSST.Library.Machine
import IcebergSST.Library.WriteBack

/-!
# Correlation ids and the hashes they are derived from

One finding row, the ingest that has it in hand, and the upkeep of its correlation id. The
upkeep writes only where the row still holds the hash it derived from. Ingest loads the
row, moves hash and id together on its copy, and writes the columns that changed; from
its first write on, the row is locked until it commits. Submissions to a source wait for
one another, so at most one ingest has the row in hand.

An id is derived from the hash beside it in every run in which a re-key that could not
read the key finds the row without an id, if it had loaded it without one.
-/

namespace IcebergSST

structure CorrelatedRow where
  secretHash : String
  correlationId : Option String
  deriving DecidableEq

namespace CorrelatedRow

variable (derive : String → String)

def Derived (row : CorrelatedRow) : Prop :=
  ∀ id ∈ row.correlationId, id = derive row.secretHash

/-- `_claim`: the id of the hash that was read, while the row still holds it. -/
def claim (row seen : CorrelatedRow) (onlyWhenNull : Bool) : CorrelatedRow :=
  if row.secretHash = seen.secretHash ∧ (onlyWhenNull → row.correlationId = none) then
    { row with correlationId := some (derive seen.secretHash) }
  else row

variable {derive} {row : CorrelatedRow}

theorem derived_claim (h : row.Derived derive) (seen : CorrelatedRow) (onlyWhenNull : Bool) :
    (row.claim derive seen onlyWhenNull).Derived derive := by
  unfold claim
  by_cases hclaims : row.secretHash = seen.secretHash ∧ (onlyWhenNull → row.correlationId = none)
  · rw [if_pos hclaims]
    intro id hid
    rw [← Option.some.inj hid, hclaims.1]
  · rwa [if_neg hclaims]

theorem claim_secretHash (row seen : CorrelatedRow) (onlyWhenNull : Bool) :
    (row.claim derive seen onlyWhenNull).secretHash = row.secretHash := by
  unfold claim
  split_ifs <;> rfl

theorem claim_correlationId (h : row.Derived derive) {id : String}
    (hid : row.correlationId = some id) (seen : CorrelatedRow) (onlyWhenNull : Bool) :
    (row.claim derive seen onlyWhenNull).correlationId = some id := by
  unfold claim
  by_cases hclaims : row.secretHash = seen.secretHash ∧ (onlyWhenNull → row.correlationId = none)
  · rw [if_pos hclaims, h id hid, hclaims.1]
  · rwa [if_neg hclaims]

end CorrelatedRow

/-- The ingest of a submission, with the row as it believes it stored and its copy. -/
structure RowIngest where
  /-- The correlation key could be read. -/
  keyed : Bool
  loaded : CorrelatedRow
  copy : CorrelatedRow
  /-- What it has written and not committed. -/
  written : Option CorrelatedRow := none

structure CorrelationLife where
  row : CorrelatedRow
  /-- Every committed version of the row, the present one last. -/
  versions : List CorrelatedRow
  ingest : Option RowIngest := none

inductive CorrelationAction
  | fillMissing (read : ℕ)
  | reindexAll (read : ℕ)
  | load (keyed : Bool)
  | rekey (secretHash : String)
  | refresh
  | flush
  | commit
  | rollback

namespace CorrelatedRow

/-- The columns in which `copy` differs from `loaded`, written over `stored`. -/
def writeBack (loaded copy stored : CorrelatedRow) : CorrelatedRow where
  secretHash := Column.writeBack loaded.secretHash copy.secretHash stored.secretHash
  correlationId := Column.writeBack loaded.correlationId copy.correlationId stored.correlationId

end CorrelatedRow

namespace RowIngest

variable (derive : String → String)

def identify (i : RowIngest) (secretHash : String) : Option String :=
  if i.keyed then some (derive secretHash) else none

def rekey (i : RowIngest) (secretHash : String) : RowIngest :=
  { i with copy := { secretHash, correlationId := i.identify derive secretHash } }

/-- `_refresh` gives a row without an id one, and leaves an id alone. -/
def refresh (i : RowIngest) : RowIngest :=
  { i with copy := { i.copy with
      correlationId := i.copy.correlationId <|> i.identify derive i.copy.secretHash } }

/-- The row as this transaction finds it: what it has written, or what is committed. -/
def working (i : RowIngest) (row : CorrelatedRow) : CorrelatedRow := i.written.getD row

def flush (i : RowIngest) (row : CorrelatedRow) : RowIngest :=
  { i with loaded := i.copy, written := some (i.loaded.writeBack i.copy (i.working row)) }

end RowIngest

/-- `_create`: a row gets its id with its hash, or none while the key is unreadable. -/
def CorrelationLife.created (derive : String → String) (secretHash : String) (keyed : Bool) :
    CorrelationLife where
  row := ⟨secretHash, if keyed then some (derive secretHash) else none⟩
  versions := [⟨secretHash, if keyed then some (derive secretHash) else none⟩]

namespace CorrelationLife

variable (derive : String → String)

/-- An update of the row waits while an ingest that has written it is not over. -/
def Locked (w : CorrelationLife) : Prop := ∃ i ∈ w.ingest, i.written.isSome

instance (w : CorrelationLife) : Decidable w.Locked :=
  decidable_of_iff (w.ingest.any (·.written.isSome)) (Option.any_eq_true _ _)

def put (w : CorrelationLife) (row : CorrelatedRow) : CorrelationLife :=
  { w with row, versions := w.versions ++ [row] }

def step (w : CorrelationLife) : CorrelationAction → Option CorrelationLife
  | .fillMissing read =>
      w.versions[read]?.bind fun seen =>
        if w.Locked ∨ seen.correlationId ≠ none then none
        else some (w.put (w.row.claim derive seen true))
  | .reindexAll read =>
      w.versions[read]?.bind fun seen =>
        if w.Locked ∨ seen.correlationId = some (derive seen.secretHash) then none
        else some (w.put (w.row.claim derive seen false))
  | .load keyed =>
      match w.ingest with
      | none => some { w with ingest := some { keyed, loaded := w.row, copy := w.row } }
      | some _ => none
  | .rekey secretHash =>
      w.ingest.map fun i => { w with ingest := some (i.rekey derive secretHash) }
  | .refresh => w.ingest.map fun i => { w with ingest := some (i.refresh derive) }
  | .flush => w.ingest.map fun i => { w with ingest := some (i.flush w.row) }
  | .commit =>
      w.ingest.bind fun i =>
        if i.copy = i.loaded then some { w.put (i.working w.row) with ingest := none } else none
  | .rollback => some { w with ingest := none }

/-- A hash written without an id, on a row that was loaded without one, finds none. -/
def Unfilled (w : CorrelationLife) : CorrelationAction → Prop
  | .flush => ∀ i ∈ w.ingest, i.copy.secretHash ≠ i.loaded.secretHash →
      i.loaded.correlationId = none → i.copy.correlationId = none →
        (i.working w.row).correlationId = none
  | _ => True

end CorrelationLife

variable {derive : String → String}

structure RowIngest.Sound (derive : String → String) (i : RowIngest) (row : CorrelatedRow) :
    Prop where
  loaded : i.loaded.secretHash = (i.working row).secretHash
  identified : ∀ id ∈ i.loaded.correlationId, (i.working row).correlationId = some id
  copy : i.copy.Derived derive
  working : (i.working row).Derived derive

namespace RowIngest.Sound

variable {i : RowIngest} {row row' : CorrelatedRow}

theorem load (keyed : Bool) (h : row.Derived derive) :
    RowIngest.Sound derive { keyed, loaded := row, copy := row } row where
  loaded := rfl
  identified := fun _ hid => hid
  copy := h
  working := h

theorem rekey (hi : i.Sound derive row) (secretHash : String) :
    (i.rekey derive secretHash).Sound derive row where
  loaded := hi.loaded
  identified := hi.identified
  copy := by
    intro id hid
    change id ∈ i.identify derive secretHash at hid
    unfold RowIngest.identify at hid
    split_ifs at hid
    · exact (Option.some.inj hid).symm
    · cases hid
  working := hi.working

theorem refresh (hi : i.Sound derive row) : (i.refresh derive).Sound derive row where
  loaded := hi.loaded
  identified := hi.identified
  copy := by
    intro id hid
    change id ∈ (i.copy.correlationId <|> i.identify derive i.copy.secretHash) at hid
    cases hc : i.copy.correlationId with
    | some id' =>
        rw [hc] at hid
        exact hi.copy id (hc ▸ hid)
    | none =>
        rw [hc] at hid
        change id ∈ i.identify derive i.copy.secretHash at hid
        unfold RowIngest.identify at hid
        split_ifs at hid
        · exact (Option.some.inj hid).symm
        · cases hid
  working := hi.working

/-- What a flush stores: the hash of the copy, and its id unless neither the copy nor the
row that was loaded has one. -/
theorem flush_working (hi : i.Sound derive row) :
    ((i.flush row).working row).secretHash = i.copy.secretHash ∧
      ((i.flush row).working row).correlationId =
        if i.copy.correlationId = none ∧ i.loaded.correlationId = none then
          (i.working row).correlationId
        else i.copy.correlationId := by
  constructor
  · exact Column.writeBack_eq_assigned_iff.2 fun hclean => hi.loaded.symm.trans hclean.symm
  · change Column.writeBack i.loaded.correlationId i.copy.correlationId _ = _
    by_cases hnone : i.copy.correlationId = none ∧ i.loaded.correlationId = none
    · rw [if_pos hnone, hnone.1, hnone.2]
      exact Column.writeBack_clean _ _
    · rw [if_neg hnone]
      apply Column.writeBack_eq_assigned_iff.2
      intro hclean
      cases hl : i.loaded.correlationId with
      | none => exact absurd ⟨hclean.trans hl, hl⟩ hnone
      | some id => exact (hi.identified id hl).trans (hclean.trans hl).symm

theorem flush (hi : i.Sound derive row)
    (hunfilled : i.copy.secretHash ≠ i.loaded.secretHash → i.loaded.correlationId = none →
      i.copy.correlationId = none → (i.working row).correlationId = none) :
    (i.flush row).Sound derive row := by
  obtain ⟨hhash, hid⟩ := hi.flush_working
  constructor
  · exact hhash.symm
  · intro id hloaded
    change i.copy.correlationId = some id at hloaded
    rw [hid, if_neg, hloaded]
    rw [hloaded]
    exact fun h => absurd h.1 (Option.some_ne_none id)
  · exact hi.copy
  · intro id hstored
    rw [hhash]
    rw [hid] at hstored
    by_cases hnone : i.copy.correlationId = none ∧ i.loaded.correlationId = none
    · rw [if_pos hnone] at hstored
      by_cases hsame : i.copy.secretHash = i.loaded.secretHash
      · rw [hsame, hi.loaded]
        exact hi.working id hstored
      · rw [hunfilled hsame hnone.2 hnone.1] at hstored
        cases hstored
    · rw [if_neg hnone] at hstored
      exact hi.copy id hstored

theorem claim (hi : i.Sound derive row) (hwritten : i.written = none) (seen : CorrelatedRow)
    (onlyWhenNull : Bool) : i.Sound derive (row.claim derive seen onlyWhenNull) := by
  have hworking : ∀ row : CorrelatedRow, i.working row = row := by
    intro row
    unfold RowIngest.working
    rw [hwritten]
    rfl
  obtain ⟨hloaded, hidentified, hcopy, hderived⟩ := hi
  rw [hworking] at hloaded hderived
  simp only [hworking] at hidentified
  constructor
  · rw [hworking, CorrelatedRow.claim_secretHash]
    exact hloaded
  · intro id hid
    rw [hworking]
    exact CorrelatedRow.claim_correlationId hderived (hidentified id hid) seen onlyWhenNull
  · exact hcopy
  · rw [hworking]
    exact CorrelatedRow.derived_claim hderived seen onlyWhenNull

end RowIngest.Sound

namespace CorrelationLife

variable {w w' : CorrelationLife}

structure Sound (derive : String → String) (w : CorrelationLife) : Prop where
  current : w.row ∈ w.versions
  derived : ∀ v ∈ w.versions, v.Derived derive
  ingest : ∀ i ∈ w.ingest, i.Sound derive w.row

theorem sound_created (secretHash : String) (keyed : Bool) :
    (created derive secretHash keyed).Sound derive where
  current := List.mem_singleton_self _
  derived := by
    intro v hv id hid
    rw [List.mem_singleton.1 hv] at hid ⊢
    cases keyed with
    | false => cases hid
    | true => exact (Option.some.inj hid).symm
  ingest := fun i hi => absurd hi (Option.not_mem_none i)

theorem Sound.put (hs : w.Sound derive) {row : CorrelatedRow} (hrow : row.Derived derive)
    {ingest : Option RowIngest} (hingest : ∀ i ∈ ingest, i.Sound derive row) :
    ({ w.put row with ingest } : CorrelationLife).Sound derive where
  current := List.mem_append_right _ (List.mem_singleton_self row)
  derived := by
    intro v hv
    rcases List.mem_append.1 hv with hv | hv
    · exact hs.derived v hv
    · rwa [List.mem_singleton.1 hv]
  ingest := hingest

theorem Sound.claim (hs : w.Sound derive) (hfree : ¬ w.Locked) (seen : CorrelatedRow)
    (onlyWhenNull : Bool) : (w.put (w.row.claim derive seen onlyWhenNull)).Sound derive := by
  apply hs.put (CorrelatedRow.derived_claim (hs.derived w.row hs.current) seen onlyWhenNull)
  intro i hi
  apply (hs.ingest i hi).claim _ seen onlyWhenNull
  by_contra hwritten
  exact hfree ⟨i, hi, Option.isSome_iff_ne_none.2 hwritten⟩

theorem Sound.take (hs : w.Sound derive) {i : RowIngest} (hi : i.Sound derive w.row) :
    ({ w with ingest := some i } : CorrelationLife).Sound derive where
  current := hs.current
  derived := hs.derived
  ingest := by
    intro i' hi'
    rwa [← Option.some.inj hi']

theorem Sound.step (hs : w.Sound derive) {a : CorrelationAction} (ha : w.Unfilled a)
    (h : w.step derive a = some w') : w'.Sound derive := by
  cases a with
  | fillMissing read =>
      obtain ⟨seen, -, hput⟩ := Option.bind_eq_some_iff.1 h
      split_ifs at hput with hwaits
      obtain rfl := Option.some.inj hput
      exact hs.claim (not_or.1 hwaits).1 seen true
  | reindexAll read =>
      obtain ⟨seen, -, hput⟩ := Option.bind_eq_some_iff.1 h
      split_ifs at hput with hwaits
      obtain rfl := Option.some.inj hput
      exact hs.claim (not_or.1 hwaits).1 seen false
  | load keyed =>
      cases hi : w.ingest with
      | some i =>
          simp only [CorrelationLife.step, hi, reduceCtorEq] at h
      | none =>
          simp only [CorrelationLife.step, hi, Option.some.injEq] at h
          subst h
          exact hs.take (.load keyed (hs.derived w.row hs.current))
  | rekey secretHash =>
      obtain ⟨i, hi, rfl⟩ := Option.map_eq_some_iff.1 h
      exact hs.take ((hs.ingest i hi).rekey secretHash)
  | refresh =>
      obtain ⟨i, hi, rfl⟩ := Option.map_eq_some_iff.1 h
      exact hs.take (hs.ingest i hi).refresh
  | flush =>
      obtain ⟨i, hi, rfl⟩ := Option.map_eq_some_iff.1 h
      exact hs.take ((hs.ingest i hi).flush (ha i hi))
  | commit =>
      obtain ⟨i, hi, hput⟩ := Option.bind_eq_some_iff.1 h
      split_ifs at hput
      obtain rfl := Option.some.inj hput
      exact hs.put (hs.ingest i hi).working fun i' hi' => absurd hi' (Option.not_mem_none i')
  | rollback =>
      obtain rfl := Option.some.inj h
      exact ⟨hs.current, hs.derived, fun i hi => absurd hi (Option.not_mem_none i)⟩

def IsCreated (derive : String → String) (w : CorrelationLife) : Prop :=
  ∃ secretHash keyed, w = created derive secretHash keyed

/-- In every run whose re-keys without the key find no id on a row loaded without one,
every committed id is that of the hash beside it. -/
theorem correlation_ids_stay_derived
    (hw : Machine.Reachable (step derive) Unfilled (IsCreated derive) w) :
    w.row.Derived derive ∧ ∀ v ∈ w.versions, v.Derived derive := by
  have hs : w.Sound derive := by
    apply hw.invariant
    · rintro w ⟨secretHash, keyed, rfl⟩
      exact sound_created secretHash keyed
    · intro w a w' hs ha hstep
      exact hs.step ha hstep
  exact ⟨hs.derived w.row hs.current, hs.derived⟩

instance (w : CorrelationLife) (a : CorrelationAction) : Decidable (w.Unfilled a) :=
  match a with
  | .flush => inferInstanceAs (Decidable (∀ i ∈ w.ingest, _))
  | .fillMissing _ | .reindexAll _ | .load _ | .rekey _ | .refresh | .commit | .rollback =>
      .isTrue trivial

instance (derive : String → String) (row : CorrelatedRow) : Decidable (row.Derived derive) :=
  inferInstanceAs (Decidable (∀ id ∈ row.correlationId, _))

def labelled (secretHash : String) : String := "id:" ++ secretHash

/-- A row that was created while the key was unreadable is re-keyed under the new pepper. -/
def rekeyed (between : List CorrelationAction) : List CorrelationAction :=
  .load false :: between ++ [.rekey "1e1e1e1e1e1e1e1e", .refresh, .flush, .commit]

/-- The repair comes after the re-key. -/
theorem correlation_ids_stay_derived_when_filled_later : ∃ w : CorrelationLife,
    w.row = ⟨"1e1e1e1e1e1e1e1e", some "id:1e1e1e1e1e1e1e1e"⟩ ∧
      w.row.Derived labelled ∧ ∀ v ∈ w.versions, v.Derived labelled := by
  have hrun : (Machine.run (step labelled) Unfilled (created labelled "0f0f0f0f0f0f0f0f" false)
      (rekeyed [] ++ [.fillMissing 1])).any fun w =>
        w.row = ⟨"1e1e1e1e1e1e1e1e", some "id:1e1e1e1e1e1e1e1e"⟩ := by
    decide +kernel
  have hreach : Machine.Reachable (step labelled) Unfilled (IsCreated labelled)
      (created labelled "0f0f0f0f0f0f0f0f" false) := .start ⟨_, _, rfl⟩
  obtain ⟨w, hw, hrow⟩ := hreach.exists_of_run hrun
  exact ⟨w, hrow, correlation_ids_stay_derived hw⟩

/-- The repair comes between the load and the write of the re-key. -/
theorem correlation_ids_can_go_stale : ∃ w : CorrelationLife,
    Machine.Reachable (step labelled) (fun _ _ => True) (IsCreated labelled) w ∧
      w.row = ⟨"1e1e1e1e1e1e1e1e", some "id:0f0f0f0f0f0f0f0f"⟩ ∧
      ¬ w.row.Derived labelled := by
  have hrun : (Machine.run (step labelled) (fun _ _ => True)
      (created labelled "0f0f0f0f0f0f0f0f" false) (rekeyed [.fillMissing 0])).any fun w =>
        w.row = ⟨"1e1e1e1e1e1e1e1e", some "id:0f0f0f0f0f0f0f0f"⟩ ∧
          ¬ w.row.Derived labelled := by
    decide +kernel
  have hreach : Machine.Reachable (step labelled) (fun _ _ => True)
      (IsCreated labelled) (created labelled "0f0f0f0f0f0f0f0f" false) := .start ⟨_, _, rfl⟩
  exact hreach.exists_of_run hrun

/-- A re-key without the key that finds an id stores that of another hash. -/
theorem flush_not_derived (hinj : Function.Injective derive) {i : RowIngest}
    {row : CorrelatedRow} (hi : i.Sound derive row)
    (hrekeyed : i.copy.secretHash ≠ i.loaded.secretHash) (hloaded : i.loaded.correlationId = none)
    (hcopy : i.copy.correlationId = none) (hfilled : (i.working row).correlationId ≠ none) :
    ¬ ((i.flush row).working row).Derived derive := by
  intro hderived
  obtain ⟨hhash, hid⟩ := hi.flush_working
  rw [if_pos ⟨hcopy, hloaded⟩] at hid
  obtain ⟨id, hstored⟩ := Option.ne_none_iff_exists'.1 hfilled
  have hnew := hderived id (hid.trans hstored)
  have hold := hi.working id hstored
  apply hrekeyed
  rw [hi.loaded, ← hhash]
  exact hinj (hnew.symm.trans hold)

end CorrelationLife

end IcebergSST
