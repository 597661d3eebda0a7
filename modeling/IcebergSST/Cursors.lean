import IcebergSST.TaskApi

/-!
# Incremental watermarks

A cursor row records how far a complete scan of one scope got. Launching an
incremental scan validates every live row and retires them all when one fails;
finishing a complete scan stores what its tasks proposed, reviving the row of a scope
that already has one. Times are microseconds, `P` is the connector's own notion of a
position, and the rows are those of one source.
-/

namespace IcebergSST

variable {κ χ P : Type}

def day : ℤ := 86400000000

structure Source where
  updatedAt : ℕ
  fullScanIntervalDays : ℕ := 7
  interval_ge : 1 ≤ fullScanIntervalDays := by decide
  interval_le : fullScanIntervalDays ≤ 365 := by decide

def Source.interval (s : Source) : ℤ := s.fullScanIntervalDays * day

/-- What the engine table holds of a worker: whether it is active, and the version of
the rule pack it last reported. -/
structure Engine where
  active : Bool := true
  rulepack : Option String := none
  deriving DecidableEq, Repr

structure CursorProposal (P : Type) where
  scope : String
  version : String
  /-- `none` is anything but a mapping. -/
  position : Option P
  deriving DecidableEq, Repr

/-- A position with the version of the connector that wrote it. -/
structure CursorPosition (P : Type) where
  version : String
  position : P
  deriving DecidableEq, Repr

structure SourceCursor (P : Type) where
  scope : String
  position : CursorPosition P
  rulepackVersion : Option String
  sourceConfigurationVersion : Option ℕ
  mintedByScanId : ℕ
  mintedAt : ℕ
  invalidatedAt : Option ℕ := none
  invalidationReason : Option CursorInvalidationReason := none
  deriving DecidableEq, Repr

structure SourceScan extends Scan where
  id : ℕ
  mode : ScanMode := .full
  promotedFrom : Option ScanMode := none
  promotionReason : Option CursorInvalidationReason := none
  incrementalBaselineAt : Option ℕ := none
  startedAt : ℕ

def SourceCursor.Live (c : SourceCursor P) : Bool := c.invalidatedAt.isNone

def activeCursors (cursors : List (SourceCursor P)) : List (SourceCursor P) :=
  cursors.filter SourceCursor.Live

/-- The positions handed to an engine with a lease: none in a full scan. -/
def positionsForScan (cursors : List (SourceCursor P)) (mode : ScanMode) : List (SourceCursor P) :=
  if mode = .full then [] else activeCursors cursors

/-- Why this cursor cannot be trusted, or `none` if it can. -/
def invalidationFor (cursor : Option (SourceCursor P)) (source : Source)
    (rulepackVersion : Option String) (pepperRotating : Bool) (now : ℕ) :
    Option CursorInvalidationReason :=
  match cursor with
  | none => some .noCursor
  | some cursor =>
      if cursor.invalidatedAt.isSome then
        some (cursor.invalidationReason.getD .operatorRequested)
      else if cursor.sourceConfigurationVersion ≠ some source.updatedAt then
        some .sourceConfigurationChanged
      else if rulepackVersion = none ∨ cursor.rulepackVersion ≠ rulepackVersion then
        some .rulepackChanged
      else if pepperRotating then some .pepperRotating
      else if source.interval ≤ (now : ℤ) - cursor.mintedAt then some .intervalElapsed
      else none

/-- The version the active engines agree on. Disagreement reads as unknown. -/
def fleetRulepackVersion (engines : List Engine) : Option String :=
  match ((engines.filter Engine.active).filterMap Engine.rulepack).dedup with
  | [version] => some version
  | _ => none

/-- Retire live cursors so the next scan of them is a full one. -/
def invalidate (cursors : List (SourceCursor P)) (reason : CursorInvalidationReason) (now : ℕ) :
    List (SourceCursor P) :=
  cursors.map fun c =>
    if c.Live then { c with invalidatedAt := some now, invalidationReason := some reason } else c

structure Plan where
  mode : ScanMode
  reason : Option CursorInvalidationReason := none
  baseline : Option ℕ := none
  deriving DecidableEq, Repr

/-- The mode a scan actually runs in, with the cursor rows the decision leaves. -/
def planMode (cursors : List (SourceCursor P)) (source : Source) (requested : ScanMode)
    (rulepackVersion : Option String) (pepperRotating : Bool) (now : ℕ) :
    List (SourceCursor P) × Plan :=
  if requested = .full then (cursors, { mode := .full })
  else if activeCursors cursors = [] then (cursors, { mode := .full, reason := some .noCursor })
  else
    match (activeCursors cursors).findSome? fun c =>
        invalidationFor (some c) source rulepackVersion pepperRotating now with
    | some reason => (invalidate cursors reason now, { mode := .full, reason := some reason })
    | none =>
        (cursors,
          { mode := .incremental, baseline := ((activeCursors cursors).map (·.mintedAt)).min? })

/-- The row a proposal leaves for its scope. -/
def mint (scan : SourceScan) (now : ℕ) (scope version : String) (position : P) :
    SourceCursor P where
  scope
  position := ⟨version, position⟩
  rulepackVersion := scan.rulepackVersion
  sourceConfigurationVersion := scan.sourceConfigurationVersion
  mintedByScanId := scan.id
  mintedAt := now

/-- The row of the scope is revived in place; only a new scope gets a new row. -/
def upsert (cursors : List (SourceCursor P)) (cursor : SourceCursor P) : List (SourceCursor P) :=
  if cursors.any (·.scope = cursor.scope) then
    cursors.map fun c => if c.scope = cursor.scope then cursor else c
  else cursors ++ [cursor]

def commitProposal (scan : SourceScan) (now : ℕ) (cursors : List (SourceCursor P))
    (task : ScanTask χ (CursorProposal P)) : List (SourceCursor P) :=
  if task.status ≠ .completed then cursors
  else
    match task.cursorProposal with
    | none => cursors
    | some proposal =>
        if proposal.scope = "" ∨ proposal.version = "" then cursors
        else
          match proposal.position with
          | none => cursors
          | some position =>
              upsert cursors (mint scan now proposal.scope proposal.version position)

/-- Store the watermarks a completed scan's tasks proposed. -/
def commitProposals (cursors : List (SourceCursor P)) (scan : SourceScan)
    (tasks : List (ScanTask χ (CursorProposal P))) (now : ℕ) : List (SourceCursor P) :=
  tasks.foldl (commitProposal scan now) cursors

def watermarkOf (positions : List (SourceCursor P)) (scope : String) : Option P :=
  (positions.find? (·.scope = scope)).map (·.position.position)

/-- A fetch task at the end of a complete scan, with the position it proposes for a
scope, if any. -/
def completedFetch (scope version : String) (position : Option P) :
    ScanTask χ (CursorProposal P) where
  id := 0
  kind := .fetch
  status := .completed
  cursorProposal := position.map fun p => { scope, version, position := some p }

theorem mem_activeCursors {cursors : List (SourceCursor P)} {c : SourceCursor P} :
    c ∈ activeCursors cursors ↔ c ∈ cursors ∧ c.Live := List.mem_filter

theorem mem_upsert {cursors : List (SourceCursor P)} {new c : SourceCursor P}
    (h : c ∈ upsert cursors new) : c = new ∨ c ∈ cursors := by
  unfold upsert at h
  split_ifs at h
  · obtain ⟨old, hold, heq⟩ := List.mem_map.1 h
    by_cases hscope : old.scope = new.scope
    · rw [if_pos hscope] at heq
      exact Or.inl heq.symm
    · rw [if_neg hscope] at heq
      exact Or.inr (heq ▸ hold)
  · rcases List.mem_append.1 h with hold | hnew
    · exact Or.inr hold
    · exact Or.inl (List.mem_singleton.1 hnew)

theorem eq_of_mem_upsert {cursors : List (SourceCursor P)} {new c : SourceCursor P}
    (h : c ∈ upsert cursors new) (hscope : c.scope = new.scope) : c = new := by
  unfold upsert at h
  split_ifs at h with hany
  · obtain ⟨old, -, heq⟩ := List.mem_map.1 h
    by_cases hold : old.scope = new.scope
    · rw [if_pos hold] at heq
      exact heq.symm
    · rw [if_neg hold] at heq
      exact absurd (heq ▸ hscope) hold
  · rcases List.mem_append.1 h with hold | hnew
    · exact absurd (List.any_eq_true.2 ⟨c, hold, decide_eq_true hscope⟩) hany
    · exact List.mem_singleton.1 hnew

/-- A row after a commit is one from before, or the row some completed task's proposal
left. -/
theorem mem_commitProposals {cursors : List (SourceCursor P)} {scan : SourceScan}
    {tasks : List (ScanTask χ (CursorProposal P))} {now : ℕ} {c : SourceCursor P}
    (h : c ∈ commitProposals cursors scan tasks now) :
    c ∈ cursors ∨ ∃ task ∈ tasks, task.status = .completed ∧ ∃ proposal position,
      task.cursorProposal = some proposal ∧ proposal.position = some position ∧
        c = mint scan now proposal.scope proposal.version position := by
  induction tasks generalizing cursors with
  | nil => exact Or.inl h
  | cons task tasks ih =>
      rcases ih h with hrow | ⟨t, ht, hminted⟩
      · unfold commitProposal at hrow
        split_ifs at hrow with hstatus
        · exact Or.inl hrow
        · cases hp : task.cursorProposal with
          | none => rw [hp] at hrow; exact Or.inl hrow
          | some proposal =>
              simp only [hp] at hrow
              split_ifs at hrow with hempty
              · exact Or.inl hrow
              · cases hpos : proposal.position with
                | none => rw [hpos] at hrow; exact Or.inl hrow
                | some position =>
                    rw [hpos] at hrow
                    rcases mem_upsert hrow with rfl | hold
                    · exact Or.inr ⟨task, List.mem_cons_self, not_not.1 hstatus, proposal,
                        position, hp, hpos, rfl⟩
                    · exact Or.inl hold
      · exact Or.inr ⟨t, List.mem_cons_of_mem _ ht, hminted⟩

theorem commitProposal_completedFetch_some {scope version : String} (hscope : scope ≠ "")
    (hversion : version ≠ "") (scan : SourceScan) (now : ℕ) (cursors : List (SourceCursor P))
    (p : P) :
    commitProposal scan now cursors (completedFetch scope version (some p) : ScanTask χ _) =
      upsert cursors (mint scan now scope version p) :=
  if_neg (not_or.2 ⟨hscope, hversion⟩)

/-- Where all tasks propose the same position for a scope, its row has that position
afterwards, or nothing was proposed. -/
theorem position_of_mem_commitProposals {scope version : String} {position : Option P}
    {tasks : List (ScanTask χ (CursorProposal P))} {scan : SourceScan} {now : ℕ}
    {cursors : List (SourceCursor P)} {c : SourceCursor P} (hscope : scope ≠ "")
    (hversion : version ≠ "") (htasks : ∀ t ∈ tasks, t = completedFetch scope version position)
    (hc : c ∈ commitProposals cursors scan tasks now) (h : c.scope = scope) :
    c ∈ cursors ∧ (tasks = [] ∨ position = none) ∨
      ¬ (tasks = [] ∨ position = none) ∧ position = some c.position.position := by
  induction tasks generalizing cursors with
  | nil => exact Or.inl ⟨hc, Or.inl rfl⟩
  | cons t tasks ih =>
      have hfirst := htasks t List.mem_cons_self
      have hrest := ih (fun t ht => htasks t (List.mem_cons_of_mem _ ht)) hc
      cases position with
      | none =>
          refine Or.inl ⟨?_, Or.inr rfl⟩
          rw [hfirst] at hrest
          rcases hrest with ⟨hrow, -⟩ | ⟨hnot, -⟩
          · exact hrow
          · exact absurd (Or.inr rfl) hnot
      | some p =>
          refine Or.inr ⟨by simp, ?_⟩
          rcases hrest with ⟨hrow, -⟩ | ⟨-, hpos⟩
          · rw [hfirst, commitProposal_completedFetch_some hscope hversion] at hrow
            rw [eq_of_mem_upsert hrow h]
            rfl
          · exact hpos

theorem exists_cursor_of_watermarkOf {cursors : List (SourceCursor P)} {mode : ScanMode}
    {scope : String} {p : P} (h : watermarkOf (positionsForScan cursors mode) scope = some p) :
    ∃ c ∈ cursors, c.scope = scope ∧ c.Live ∧ c.position.position = p := by
  obtain ⟨c, hfind, hpos⟩ := Option.map_eq_some_iff.1 h
  have hmem := List.mem_of_find?_eq_some hfind
  have hscope : c.scope = scope := by simpa using List.find?_some hfind
  unfold positionsForScan at hmem
  split_ifs at hmem with hfull
  · cases hmem
  · obtain ⟨hc, hlive⟩ := mem_activeCursors.1 hmem
    exact ⟨c, hc, hscope, hlive, hpos⟩

/-- Two rows that say the same, but for whether they are live. -/
structure SourceCursor.SameClaim (c old : SourceCursor P) : Prop where
  scope : c.scope = old.scope
  position : c.position = old.position
  rulepackVersion : c.rulepackVersion = old.rulepackVersion
  sourceConfigurationVersion : c.sourceConfigurationVersion = old.sourceConfigurationVersion
  mintedByScanId : c.mintedByScanId = old.mintedByScanId
  mintedAt : c.mintedAt = old.mintedAt

theorem mem_invalidate {cursors : List (SourceCursor P)} {reason : CursorInvalidationReason}
    {now : ℕ} {c : SourceCursor P} (h : c ∈ invalidate cursors reason now) :
    ∃ old ∈ cursors, (c.Live → c = old) ∧ c.SameClaim old := by
  obtain ⟨old, hold, rfl⟩ := List.mem_map.1 h
  refine ⟨old, hold, ?_⟩
  by_cases hlive : old.Live
  · rw [if_pos hlive]
    exact ⟨fun hnow => (Bool.false_ne_true hnow).elim, rfl, rfl, rfl, rfl, rfl, rfl⟩
  · rw [if_neg hlive]
    exact ⟨fun _ => rfl, rfl, rfl, rfl, rfl, rfl, rfl⟩

theorem planMode_cursors (cursors : List (SourceCursor P)) (source : Source)
    (requested : ScanMode) (rulepackVersion : Option String) (pepperRotating : Bool) (now : ℕ) :
    (planMode cursors source requested rulepackVersion pepperRotating now).1 = cursors ∨
      ∃ reason, (planMode cursors source requested rulepackVersion pepperRotating now).1 =
        invalidate cursors reason now := by
  unfold planMode
  split_ifs
  · exact Or.inl rfl
  · exact Or.inl rfl
  · cases (activeCursors cursors).findSome? fun c =>
        invalidationFor (some c) source rulepackVersion pepperRotating now with
    | none => exact Or.inl rfl
    | some reason => exact Or.inr ⟨reason, rfl⟩

theorem invalidationFor_eq_none {c : SourceCursor P} {source : Source}
    {rulepackVersion : Option String} {pepperRotating : Bool} {now : ℕ} :
    invalidationFor (some c) source rulepackVersion pepperRotating now = none ↔
      c.Live ∧ c.sourceConfigurationVersion = some source.updatedAt ∧
        (rulepackVersion ≠ none ∧ c.rulepackVersion = rulepackVersion) ∧
        pepperRotating = false ∧ (now : ℤ) - c.mintedAt < source.interval := by
  unfold invalidationFor
  dsimp only
  constructor
  · intro h
    split_ifs at h with hinv hconf hpack hpepper hage
    push Not at hpack
    refine ⟨?_, not_not.1 hconf, hpack, Bool.eq_false_iff.2 hpepper, not_le.1 hage⟩
    rw [SourceCursor.Live, ← Option.not_isSome]
    simpa only [Bool.not_eq_true', Bool.not_eq_true] using hinv
  · rintro ⟨hlive, hconf, ⟨hknown, hpack⟩, hpepper, hage⟩
    have hinv : ¬ c.invalidatedAt.isSome := by
      rw [Option.isNone_iff_eq_none.1 hlive]
      exact Bool.false_ne_true
    have hsame : ¬ (rulepackVersion = none ∨ c.rulepackVersion ≠ rulepackVersion) :=
      not_or.2 ⟨hknown, not_not.2 hpack⟩
    rw [if_neg hinv, if_neg (not_not.2 hconf), if_neg hsame, if_neg (by simp [hpepper]),
      if_neg (not_le.2 hage)]

/-- A requested incremental scan runs as one exactly when there are live rows and every
one of them passes. -/
theorem planMode_incremental_iff (cursors : List (SourceCursor P)) (source : Source)
    (rulepackVersion : Option String) (pepperRotating : Bool) (now : ℕ) :
    (planMode cursors source .incremental rulepackVersion pepperRotating now).2.mode =
        .incremental ↔
      activeCursors cursors ≠ [] ∧ ∀ c ∈ activeCursors cursors,
        invalidationFor (some c) source rulepackVersion pepperRotating now = none := by
  unfold planMode
  by_cases hlive : activeCursors cursors = []
  · simp [hlive]
  · simp only [reduceCtorEq, if_false, hlive]
    cases hfind : (activeCursors cursors).findSome? fun c =>
        invalidationFor (some c) source rulepackVersion pepperRotating now with
    | none =>
        have hall := List.findSome?_eq_none_iff.1 hfind
        exact ⟨fun _ => ⟨hlive, hall⟩, fun _ => rfl⟩
    | some reason =>
        obtain ⟨c, hc, hreason⟩ := List.exists_of_findSome?_eq_some hfind
        constructor
        · intro h
          cases h
        · rintro ⟨-, hall⟩
          rw [hall c hc] at hreason
          cases hreason

end IcebergSST
