import IcebergSST.Library.RollCall
import IcebergSST.CreatedWindows
import IcebergSST.Discovery
import IcebergSST.Units

/-!
# Enumerating the scopes of a source

Discovery pages through the spaces of a wiki or the projects of a tracker. A scan that
leaves out a scope silently looks clean, so it must end in an error unless every scope it
was asked for was listed, once and with an identity of its own.
-/

namespace IcebergSST

open RollCall Content

inductive DiscoveryEnd
  | complete
  | raised (exception : Raised)
  /-- A `ConnectorError` of discovery itself. -/
  | refused (message : String)
  deriving DecidableEq, Repr

structure Discovering (σ : Type) where
  specs : List σ
  ending : DiscoveryEnd
  deriving DecidableEq, Repr

variable (casefold : String → String)

/-- `sorted(wanted - matched)` -/
def missingKeys (wanted matched : List String) : List String :=
  ((wanted.filter (· ∉ matched)).dedup).mergeSort

theorem missingKeys_eq_nil_iff {wanted matched : List String} :
    missingKeys wanted matched = [] ↔ ∀ key ∈ wanted, key ∈ matched := by
  unfold missingKeys
  rw [← List.length_eq_zero_iff, List.length_mergeSort, List.length_eq_zero_iff,
    List.dedup_eq_nil, List.filter_eq_nil_iff]
  simp

section Engine
variable {casefold : String → String}

theorem mem_dictSet {d : List (String × String)} {key value : String} {e : String × String} :
    e ∈ dictSet d key value ↔ e = (key, value) ∨ e ∈ d ∧ e.1 ≠ key := by
  unfold dictSet
  split_ifs with h
  · obtain ⟨old, hold, hkey⟩ := List.any_eq_true.1 h
    constructor
    · intro he
      obtain ⟨e', he', rfl⟩ := List.mem_map.1 he
      split_ifs with hk
      · exact .inl rfl
      · exact .inr ⟨he', hk⟩
    · rintro (rfl | ⟨he, hk⟩)
      · exact List.mem_map.2 ⟨old, hold, if_pos (by simpa using hkey)⟩
      · exact List.mem_map.2 ⟨e, he, if_neg hk⟩
  · have hnot : ∀ e ∈ d, e.1 ≠ key := fun e he hk => h (List.any_eq_true.2 ⟨e, he, by simpa⟩)
    rw [List.mem_append, List.mem_singleton]
    constructor
    · rintro (he | rfl)
      · exact .inr ⟨he, hnot e he⟩
      · exact .inl rfl
    · rintro (rfl | ⟨he, -⟩)
      · exact .inr rfl
      · exact .inl he

theorem mem_keys_dictSet {d : List (String × String)} {key value k : String} :
    k ∈ (dictSet d key value).map Prod.fst ↔ k = key ∨ k ∈ d.map Prod.fst := by
  simp only [List.mem_map, mem_dictSet]
  constructor
  · rintro ⟨e, rfl | ⟨he, -⟩, rfl⟩
    · exact .inl rfl
    · exact .inr ⟨e, he, rfl⟩
  · rintro (rfl | ⟨e, he, rfl⟩)
    · exact ⟨_, .inl rfl, rfl⟩
    · by_cases hk : e.1 = key
      · exact ⟨_, .inl rfl, hk.symm⟩
      · exact ⟨e, .inr ⟨he, hk⟩, rfl⟩

theorem foldl_dictSet (values : List String) (d : List (String × String))
    (hd : ∀ e ∈ d, casefold e.2 = e.1) :
    let d' := values.foldl (fun d value => dictSet d (casefold value) value) d
    (∀ e ∈ d', casefold e.2 = e.1) ∧
      ∀ k, k ∈ d'.map Prod.fst ↔ k ∈ d.map Prod.fst ∨ k ∈ values.map casefold := by
  induction values generalizing d with
  | nil => exact ⟨hd, by simp⟩
  | cons value values ih =>
      have hstep : ∀ e ∈ dictSet d (casefold value) value, casefold e.2 = e.1 := by
        intro e he
        rcases mem_dictSet.1 he with rfl | ⟨he, -⟩
        · rfl
        · exact hd e he
      obtain ⟨hkeys, hmem⟩ := ih _ hstep
      refine ⟨hkeys, fun k => ?_⟩
      rw [List.foldl_cons, hmem, List.map_cons, List.mem_cons, mem_keys_dictSet]
      tauto

/-- The gaps of a failed discovery are the configured values without a spec. -/
theorem mem_missingScopes {lease : DiscoveryLease} {specs : List TaskSpec} {key : String} :
    key ∈ (missingScopes casefold lease specs).map casefold ↔
      key ∈ lease.scopes.map casefold ∧
        key ∉ specs.map fun spec => casefold (spec.param lease.scopeParam) := by
  obtain ⟨hkeys, hmem⟩ := @foldl_dictSet casefold lease.scopes [] (by simp)
  unfold missingScopes
  dsimp only
  generalize lease.scopes.foldl (fun d value => dictSet d (casefold value) value) [] = d'
    at hkeys hmem
  constructor
  · intro hk
    obtain ⟨value, hvalue, rfl⟩ := List.mem_map.1 hk
    obtain ⟨e, he, rfl⟩ := List.mem_map.1 hvalue
    rw [List.mem_filter, decide_eq_true_eq] at he
    rw [hkeys e he.1]
    exact ⟨((hmem e.1).1 (List.mem_map_of_mem he.1)).resolve_left (by simp), he.2⟩
  · rintro ⟨hk, hnot⟩
    obtain ⟨e, he, rfl⟩ := List.mem_map.1 ((hmem key).2 (.inr hk))
    exact List.mem_map.2 ⟨e.2, List.mem_map.2 ⟨e, List.mem_filter.2 ⟨he, decide_eq_true hnot⟩, rfl⟩,
      hkeys e he⟩

theorem missingScopes_eq_nil_iff {lease : DiscoveryLease} {specs : List TaskSpec} :
    missingScopes casefold lease specs = [] ↔ ∀ key ∈ lease.scopes.map casefold,
      key ∈ specs.map fun spec => casefold (spec.param lease.scopeParam) := by
  rw [← List.map_eq_nil_iff (f := casefold), List.eq_nil_iff_forall_not_mem]
  simp only [mem_missingScopes, not_and, not_not]

end Engine

namespace Confluence

/-- What discovery reads of a listed space; a text that is missing is empty. -/
structure SpaceRow where
  key : String
  id : String
  name : Option String := none
  type : String := ""
  deriving DecidableEq, Repr

structure SpaceScope where
  spaces : List String := []
  includePersonalSpaces : Bool := false

def isPersonal (space : SpaceRow) : Bool := casefold (strip space.type) = "personal"

namespace SpaceScope
variable (scope : SpaceScope)

def wanted : List String := scope.spaces.map casefold

def named (space : SpaceRow) : Prop := casefold space.key ∈ scope.wanted casefold

instance (space : SpaceRow) : Decidable (scope.named casefold space) :=
  inferInstanceAs (Decidable (_ ∈ _))

/-- A space is known by its key, up to case, and by its id. -/
def verdict (space : SpaceRow) : Verdict (String ⊕ String) :=
  if scope.wanted casefold ≠ [] ∧ ¬ scope.named casefold space then .outside
  else if isPersonal casefold space ∧ ¬ scope.includePersonalSpaces ∧
      ¬ scope.named casefold space then .outside
  else if space.id = "" then .unusable
  else .identified [.inl (casefold space.key), .inr space.id]

/-- `watermark` is the revision a scope was last completely scanned through, or empty. -/
def spec (watermark : String → String) (space : SpaceRow) : TaskSpec :=
  let scope := if space.key = "" then space.id else space.key
  let since := watermark scope
  { label := "space " ++ scope
    params := [("space_id", space.id), ("space_key", space.key)] ++
      (space.name.map fun name => ("space_name", name)).toList ++
      if since = "" then [] else [("since", since)] }

def discover (watermark : String → String) (spaces : Listing SpaceRow) : Discovering TaskSpec :=
  let roll := callAll (scope.verdict casefold) spaces.rows {}
  let missing := missingKeys (scope.wanted casefold)
    (roll.taken.map fun space => casefold space.key)
  { specs := roll.taken.map (spec watermark)
    ending :=
      match spaces.raised with
      | some exception => .raised exception
      | none =>
          if missing ≠ [] then
            .refused ("configured Confluence spaces were not found: " ++ ", ".intercalate missing)
          else if roll.faulty then
            .refused "Confluence discovery returned malformed or duplicate space identity"
          else .complete }

/-- The spaces to scan: those named, or without names all but the personal ones. -/
def Wants (space : SpaceRow) : Prop :=
  scope.named casefold space ∨
    scope.spaces = [] ∧ (isPersonal casefold space → scope.includePersonalSpaces)

instance (space : SpaceRow) : Decidable (scope.Wants casefold space) :=
  inferInstanceAs (Decidable (_ ∨ _))

/-- Every space to scan has an id, and no two share it or a key. -/
structure Identified (rows : List SpaceRow) : Prop where
  id : ∀ space ∈ rows, scope.Wants casefold space → space.id ≠ ""
  distinct : (rows.filter (scope.Wants casefold)).Pairwise fun space other =>
    casefold space.key ≠ casefold other.key ∧ space.id ≠ other.id

def Listed (rows : List SpaceRow) : Prop :=
  ∀ key ∈ scope.spaces, ∃ space ∈ rows, casefold space.key = casefold key

variable {casefold scope} {rows : List SpaceRow}

theorem verdict_eq (space : SpaceRow) : scope.verdict casefold space =
    if scope.Wants casefold space then
      if space.id = "" then .unusable else .identified [.inl (casefold space.key), .inr space.id]
    else .outside := by
  have hwanted : scope.wanted casefold = [] ↔ scope.spaces = [] := by simp [wanted]
  by_cases hnamed : scope.named casefold space
  · have hw : scope.Wants casefold space := .inl hnamed
    simp [verdict, hnamed, hw]
  · by_cases hspaces : scope.spaces = []
    · by_cases hpersonal : isPersonal casefold space ∧ ¬ scope.includePersonalSpaces
      · have hw : ¬ scope.Wants casefold space := by
          rintro (h | ⟨-, h⟩)
          · exact hnamed h
          · exact hpersonal.2 (h hpersonal.1)
        simp [verdict, hnamed, hwanted.2 hspaces, hw, hpersonal]
      · have hw : scope.Wants casefold space :=
          .inr ⟨hspaces, fun h => by_contra fun hnot => hpersonal ⟨h, hnot⟩⟩
        rw [if_pos hw, verdict, if_neg fun h => h.1 (hwanted.2 hspaces),
          if_neg fun h => hpersonal ⟨h.1, h.2.1⟩]
    · have hw : ¬ scope.Wants casefold space := by
        rintro (h | ⟨h, -⟩)
        · exact hnamed h
        · exact hspaces h
      rw [if_neg hw, verdict, if_pos ⟨fun h => hspaces (hwanted.1 h), hnamed⟩]

theorem inScope_verdict {space : SpaceRow} :
    InScope (scope.verdict casefold) space ↔ scope.Wants casefold space := by
  rw [InScope, verdict_eq]
  split_ifs <;> simp_all

theorem ids_verdict (space : SpaceRow) : (scope.verdict casefold space).ids? =
    if scope.Wants casefold space ∧ space.id ≠ "" then
      some [.inl (casefold space.key), .inr space.id] else none := by
  rw [verdict_eq]
  by_cases h : scope.Wants casefold space
  · by_cases hid : space.id = "" <;> simp [h, hid, Verdict.ids?]
  · simp [h, Verdict.ids?]

theorem filterMap_ids (hid : ∀ space ∈ rows, scope.Wants casefold space → space.id ≠ "") :
    (rows.filterMap fun space => (scope.verdict casefold space).ids?) =
      (rows.filter (scope.Wants casefold)).map fun space =>
        [.inl (casefold space.key), .inr space.id] := by
  induction rows with
  | nil => rfl
  | cons space rows ih =>
      have hrest := ih fun s hs => hid s (List.mem_cons_of_mem _ hs)
      rw [List.filterMap_cons, List.filter_cons, ids_verdict, hrest]
      by_cases h : scope.Wants casefold space
      · simp [h, hid space List.mem_cons_self h]
      · simp [h]

theorem disjoint_ids (space other : SpaceRow) :
    List.Disjoint ([.inl (casefold space.key), .inr space.id] : List (String ⊕ String))
      [.inl (casefold other.key), .inr other.id] ↔
    casefold space.key ≠ casefold other.key ∧ space.id ≠ other.id := by
  simp [eq_comm]

theorem distinct_verdict_iff :
    Distinct (scope.verdict casefold) rows ↔ scope.Identified casefold rows := by
  have husable : (∀ space ∈ rows, scope.verdict casefold space ≠ .unusable) ↔
      ∀ space ∈ rows, scope.Wants casefold space → space.id ≠ "" := by
    refine forall₂_congr fun space _ => ?_
    rw [verdict_eq]
    by_cases hw : scope.Wants casefold space
    · by_cases hid : space.id = "" <;> simp [hw, hid]
    · simp [hw]
  unfold Distinct
  rw [husable]
  constructor
  · rintro ⟨hid, hdisjoint⟩
    rw [filterMap_ids hid, List.pairwise_map] at hdisjoint
    exact ⟨hid, hdisjoint.imp fun h => (disjoint_ids _ _).1 h⟩
  · rintro ⟨hid, hdistinct⟩
    rw [filterMap_ids hid, List.pairwise_map]
    exact ⟨hid, hdistinct.imp fun h => (disjoint_ids _ _).2 h⟩

/-- No two fetch tasks read one space, whatever the listing repeats. -/
theorem discover_distinct (watermark : String → String) (spaces : Listing SpaceRow) :
    (scope.discover casefold watermark spaces).specs.Pairwise fun spec other =>
      spec.param "space_id" ≠ other.param "space_id" ∧
        casefold (spec.param "space_key") ≠ casefold (other.param "space_key") := by
  obtain ⟨hidentified, -, hdisjoint⟩ := @sound_roll _ _ _ (scope.verdict casefold) spaces.rows
  rw [filterMap_ids, List.pairwise_map] at hdisjoint
  · refine List.pairwise_map.2 ?_
    have hall : (callAll (scope.verdict casefold) spaces.rows {}).taken.filter
        (scope.Wants casefold) = (callAll (scope.verdict casefold) spaces.rows {}).taken := by
      refine List.filter_eq_self.2 fun space hspace => ?_
      obtain ⟨ids, hv⟩ := hidentified space hspace
      exact decide_eq_true (inScope_verdict.1 (by simp [InScope, hv]))
    rw [hall] at hdisjoint
    refine hdisjoint.imp fun {space other} h => ?_
    exact ⟨((disjoint_ids space other).1 h).2, ((disjoint_ids space other).1 h).1⟩
  · intro space hspace hw hid
    obtain ⟨ids, hv⟩ := hidentified space hspace
    rw [verdict_eq, if_pos hw, if_pos hid] at hv
    cases hv

/-- Discovery succeeds exactly when the listing came to its end, held every space that was
configured, and told all spaces to scan apart. Then it is the spaces to scan that get a
task, each one, and no configured scope is left for the engine to report. However it ends,
no space has two tasks. -/
theorem spaces_accounted (casefold : String → String) (scope : SpaceScope)
    (watermark : String → String) (spaces : Listing SpaceRow) :
    let found := scope.discover casefold watermark spaces
    (found.ending = .complete ↔ spaces.raised = none ∧ scope.Listed casefold spaces.rows ∧
        scope.Identified casefold spaces.rows) ∧
      (found.ending = .complete →
        found.specs = (spaces.rows.filter (scope.Wants casefold)).map (spec watermark) ∧
          ∀ lease : DiscoveryLease, lease.scopes = scope.spaces →
            lease.scopeParam = "space_key" → missingScopes casefold lease found.specs = []) ∧
      found.specs.Pairwise fun spec other =>
        spec.param "space_id" ≠ other.param "space_id" ∧
          casefold (spec.param "space_key") ≠ casefold (other.param "space_key") := by
  intro found
  have hfound : found.ending = .complete ↔ spaces.raised = none ∧
      (∀ key ∈ scope.wanted casefold,
        key ∈ (callAll (scope.verdict casefold) spaces.rows {}).taken.map
          fun space => casefold space.key) ∧ scope.Identified casefold spaces.rows := by
    rw [← missingKeys_eq_nil_iff, ← distinct_verdict_iff, ← faulty_eq_false_iff]
    simp only [found, discover]
    cases spaces.raised with
    | some exception => simp
    | none => split_ifs with h₁ h₂ <;> simp_all
  have htaken : scope.Identified casefold spaces.rows →
      (callAll (scope.verdict casefold) spaces.rows {}).taken =
        spaces.rows.filter (scope.Wants casefold) := by
    intro h
    rw [taken_of_distinct (distinct_verdict_iff.2 h)]
    exact List.filter_congr fun space _ => decide_eq_decide.2 inScope_verdict
  refine ⟨?_, ?_, discover_distinct watermark spaces⟩
  · rw [hfound]
    refine and_congr_right fun _ => and_congr_left fun h => ?_
    rw [htaken h]
    constructor
    · intro hmem key hkey
      obtain ⟨space, hspace, heq⟩ := List.mem_map.1 (hmem _ (List.mem_map_of_mem hkey))
      exact ⟨space, (List.mem_filter.1 hspace).1, heq⟩
    · intro hlisted key hkey
      obtain ⟨value, hvalue, rfl⟩ := List.mem_map.1 hkey
      obtain ⟨space, hspace, heq⟩ := hlisted value hvalue
      have hw : scope.Wants casefold space := .inl (by rwa [named, heq])
      exact List.mem_map.2 ⟨space, List.mem_filter.2 ⟨hspace, decide_eq_true hw⟩, heq⟩
  · intro hcomplete
    obtain ⟨-, hmem, h⟩ := hfound.1 hcomplete
    refine ⟨congrArg (List.map (spec watermark)) (htaken h), fun lease hscopes hparam => ?_⟩
    rw [missingScopes_eq_nil_iff, hscopes, hparam]
    intro key hkey
    have hspecs : found.specs =
      (callAll (scope.verdict casefold) spaces.rows {}).taken.map (spec watermark) := rfl
    rw [hspecs, List.map_map]
    exact hmem key hkey

end SpaceScope
end Confluence

namespace Jira

structure ProjectRow where
  key : String
  archived : Bool := false
  deriving DecidableEq, Repr

structure ProjectScope where
  projects : List String := []
  includeArchivedProjects : Bool := false

/-- The searches for one issue of a project. -/
inductive Probe
  | edited
  | oldest
  | newest

structure WindowSpec where
  key : ProjectKey
  window : Window
  cursorAt : Option ℕ

def DateField.name : DateField → String
  | .created => "created"
  | .updated => "updated"

def WindowSpec.label (spec : WindowSpec) : String :=
  spec.key.value ++ " issues " ++ spec.window.field.name ++ " " ++
    (spec.window.start.map JiraDates.minute).getD "start" ++ "…" ++
    (spec.window.stop.map JiraDates.minute).getD ""

def maxTaskSpecs : ℕ := 5000

def ProjectRow.projectKey (row : ProjectRow) : Option ProjectKey :=
  if h : isProjectKey (strip row.key) then some ⟨strip row.key, h⟩ else none

section Windows
variable (ask : ProjectKey → Probe → Except Raised (Option Answer))
variable (positions : List (SourceCursor ℕ))

def search (needed : Bool) (key : ProjectKey) (probe : Probe) :
    Except DiscoveryEnd (Option Answer) :=
  if needed then (ask key probe).mapError .raised else .ok none

/-- The specs of one project. The oldest and the newest issue are only asked for when
there is no window to take from the watermark. -/
def projectSpecs (key : ProjectKey) : Except DiscoveryEnd (List WindowSpec) := do
  let edited ← search ask true key .edited
  let bound ← (cursorBound key edited).mapError .refused
  let since := watermark positions key
  let ladder := since.isNone || bound.isNone
  let oldest ← search ask ladder key .oldest
  let newest ← search ask (ladder && oldest.isSome) key .newest
  let windows ← (windows key since (bound.map Prod.fst) oldest newest).mapError .refused
  return windows.map fun window => { key, window, cursorAt := bound.map Prod.snd }

def specsOf (key : ProjectKey) : List WindowSpec :=
  ((projectSpecs ask positions key).toOption).getD []

namespace ProjectScope
variable (scope : ProjectScope)

def wanted : List String :=
  ((scope.projects.map strip).filter (· ≠ "")).map casefold

def verdict (row : ProjectRow) : Verdict String :=
  match row.projectKey with
  | none => .unusable
  | some key =>
      if row.archived ∧ ¬ scope.includeArchivedProjects then .outside
      else if scope.wanted casefold ≠ [] ∧ casefold key.value ∉ scope.wanted casefold then .outside
      else .identified [casefold key.value]

def ending (raised : Option Raised) (roll : Roll ProjectRow String) : DiscoveryEnd :=
  match raised with
  | some exception => .raised exception
  | none =>
      let missing := missingKeys (scope.wanted casefold) roll.ids
      if missing ≠ [] then
        .refused ("configured Jira projects were not found: " ++ toString missing.length)
      else if roll.faulty then
        .refused "Jira discovery returned malformed or duplicate project identity"
      else .complete

def discoverFrom (raised : Option Raised) (roll : Roll ProjectRow String)
    (specs : List WindowSpec) : List ProjectRow → Discovering WindowSpec
  | [] => { specs, ending := scope.ending casefold raised roll }
  | row :: rows =>
      let roll' := call (scope.verdict casefold) roll row
      match if takes (scope.verdict casefold) roll row then row.projectKey else none with
      | none => discoverFrom raised roll' specs rows
      | some key =>
          match projectSpecs ask positions key with
          | .error ending => { specs, ending }
          | .ok new =>
              if maxTaskSpecs < specs.length + new.length then
                { specs := (specs ++ new).take maxTaskSpecs
                  ending := .refused ("Jira discovery produced more than " ++
                    toString maxTaskSpecs ++ " task specs; narrow the configured projects") }
              else discoverFrom raised roll' (specs ++ new) rows

def discover (projects : Listing ProjectRow) : Discovering WindowSpec :=
  scope.discoverFrom casefold ask positions projects.raised {} [] projects.rows

/-- The projects to scan: those configured, or without any all of them, an archived one
only on demand. -/
def Wants (row : ProjectRow) : Prop :=
  (row.archived → scope.includeArchivedProjects) ∧
    (scope.wanted casefold = [] ∨ casefold (strip row.key) ∈ scope.wanted casefold)

instance (row : ProjectRow) : Decidable (scope.Wants casefold row) :=
  inferInstanceAs (Decidable (_ ∧ _))

/-- Every project has a key one can query for, and no two projects to scan share it. -/
structure Identified (rows : List ProjectRow) : Prop where
  key : ∀ row ∈ rows, isProjectKey (strip row.key)
  distinct : (rows.filter (scope.Wants casefold)).Pairwise fun row other =>
    casefold (strip row.key) ≠ casefold (strip other.key)

def Listed (rows : List ProjectRow) : Prop :=
  ∀ key ∈ scope.wanted casefold, ∃ row ∈ rows,
    scope.Wants casefold row ∧ casefold (strip row.key) = key

def keys (rows : List ProjectRow) : List ProjectKey :=
  (rows.filter (scope.Wants casefold)).filterMap ProjectRow.projectKey

variable {casefold ask positions scope} {rows : List ProjectRow}

theorem projectKey_eq_some {row : ProjectRow} {key : ProjectKey} :
    row.projectKey = some key ↔ strip row.key = key.value := by
  unfold ProjectRow.projectKey
  constructor
  · intro h
    split_ifs at h with hkey
    rw [← Option.some_inj.1 h]
  · intro h
    have hkey : isProjectKey (strip row.key) := h ▸ key.wellFormed
    rw [dif_pos hkey]
    simp only [h]

theorem projectKey_eq_none {row : ProjectRow} :
    row.projectKey = none ↔ ¬ isProjectKey (strip row.key) := by
  unfold ProjectRow.projectKey
  split_ifs with h <;> simp [h]

theorem verdict_eq (row : ProjectRow) : scope.verdict casefold row =
    if ¬ isProjectKey (strip row.key) then .unusable
    else if scope.Wants casefold row then .identified [casefold (strip row.key)]
    else .outside := by
  unfold verdict
  cases h : row.projectKey with
  | none => rw [if_pos (projectKey_eq_none.1 h)]
  | some key =>
      have hkey := projectKey_eq_some.1 h
      have hwants : scope.Wants casefold row ↔ (row.archived → scope.includeArchivedProjects) ∧
          (scope.wanted casefold = [] ∨ casefold key.value ∈ scope.wanted casefold) := by
        rw [Wants, hkey]
      rw [if_neg (by rw [hkey, key.wellFormed]; simp), hkey]
      dsimp only
      by_cases harchived : row.archived ∧ ¬ scope.includeArchivedProjects
      · rw [if_pos harchived, if_neg fun h => harchived.2 ((hwants.1 h).1 harchived.1)]
      · have hlive : row.archived → scope.includeArchivedProjects := fun ha =>
          by_contra fun hi => harchived ⟨ha, hi⟩
        rw [if_neg harchived]
        by_cases hout : scope.wanted casefold ≠ [] ∧ casefold key.value ∉ scope.wanted casefold
        · rw [if_pos hout, if_neg fun h => (hwants.1 h).2.elim hout.1 hout.2]
        · have hnamed : scope.wanted casefold = [] ∨ casefold key.value ∈ scope.wanted casefold :=
            or_iff_not_imp_left.2 fun hne => by_contra fun hmem => hout ⟨hne, hmem⟩
          rw [if_neg hout, if_pos (hwants.2 ⟨hlive, hnamed⟩)]

theorem distinct_verdict_iff :
    Distinct (scope.verdict casefold) rows ↔ scope.Identified casefold rows := by
  have husable : (∀ row ∈ rows, scope.verdict casefold row ≠ .unusable) ↔
      ∀ row ∈ rows, isProjectKey (strip row.key) := by
    refine forall₂_congr fun row _ => ?_
    rw [verdict_eq]
    split_ifs with h <;> simp_all
  have hids : (∀ row ∈ rows, isProjectKey (strip row.key)) →
      (rows.filterMap fun row => (scope.verdict casefold row).ids?) =
        (rows.filter (scope.Wants casefold)).map fun row => [casefold (strip row.key)] := by
    intro hkey
    rw [← List.filterMap_eq_map, List.filterMap_filter]
    refine List.filterMap_congr fun row hrow => ?_
    rw [verdict_eq, if_neg (by simp [hkey row hrow])]
    by_cases h : scope.Wants casefold row <;> simp [h, Verdict.ids?]
  unfold Distinct
  rw [husable]
  constructor
  · rintro ⟨hkey, hdisjoint⟩
    rw [hids hkey, List.pairwise_map] at hdisjoint
    exact ⟨hkey, hdisjoint.imp fun h => by simpa [eq_comm] using h⟩
  · rintro ⟨hkey, hdistinct⟩
    rw [hids hkey, List.pairwise_map]
    exact ⟨hkey, hdistinct.imp fun h => by simpa [eq_comm] using h⟩

/-- The projects a loop over these rows still opens, in order. -/
def opened (casefold : String → String) (scope : ProjectScope) (roll : Roll ProjectRow String) :
    List ProjectRow → List ProjectKey
  | [] => []
  | row :: rows =>
      (if takes (scope.verdict casefold) roll row then row.projectKey else none).toList ++
        opened casefold scope (call (scope.verdict casefold) roll row) rows

theorem filterMap_taken (roll : Roll ProjectRow String) (rows : List ProjectRow) :
    (callAll (scope.verdict casefold) rows roll).taken.filterMap ProjectRow.projectKey =
      roll.taken.filterMap ProjectRow.projectKey ++ opened casefold scope roll rows := by
  induction rows generalizing roll with
  | nil => simp [callAll, opened]
  | cons row rows ih =>
      rw [callAll_cons, ih, taken_call, List.filterMap_append, List.append_assoc, opened]
      split_ifs with h
      · cases hkey : row.projectKey <;> simp [hkey]
      · simp

theorem ids_callAll (rows : List ProjectRow) :
    (callAll (scope.verdict casefold) rows {}).ids =
      (callAll (scope.verdict casefold) rows {}).taken.map fun row => casefold (strip row.key) := by
  obtain ⟨hidentified, hids, -⟩ := @sound_roll _ _ _ (scope.verdict casefold) rows
  rw [hids]
  generalize (callAll (scope.verdict casefold) rows {}).taken = taken at hidentified
  induction taken with
  | nil => rfl
  | cons row taken ih =>
      obtain ⟨ids, hv⟩ := hidentified row List.mem_cons_self
      have hone : ids = [casefold (strip row.key)] := by
        rw [verdict_eq] at hv
        split_ifs at hv
        exact (Verdict.identified.inj hv).symm
      rw [List.filterMap_cons, hv, List.map_cons, ← ih fun r hr =>
        hidentified r (List.mem_cons_of_mem _ hr)]
      simp [Verdict.ids?, hone]

/-- An exception is not the end of the rows. -/
def Stops {α : Type} (x : Except DiscoveryEnd α) : Prop := x ≠ .error .complete

theorem stops_bind {α β : Type} {x : Except DiscoveryEnd α} {f : α → Except DiscoveryEnd β}
    (hx : Stops x) (hf : ∀ a, Stops (f a)) : Stops (x >>= f) := by
  cases x with
  | error ending => exact fun h => hx (congrArg Except.error (Except.error.inj h))
  | ok a => exact hf a

theorem stops_mapError {α ε : Type} {x : Except ε α} {f : ε → DiscoveryEnd}
    (hf : ∀ e, f e ≠ .complete) : Stops (x.mapError f) := by
  cases x with
  | error e => exact fun h => hf e (Except.error.inj h)
  | ok a => exact nofun

theorem stops_projectSpecs (key : ProjectKey) : Stops (projectSpecs ask positions key) := by
  have hask : ∀ (needed : Bool) (probe : Probe), Stops (search ask needed key probe) := by
    intro needed probe
    cases needed
    · exact nofun
    · exact stops_mapError nofun
  unfold projectSpecs
  refine stops_bind (hask _ _) fun edited => ?_
  refine stops_bind (stops_mapError nofun) fun bound => ?_
  refine stops_bind (hask _ _) fun oldest => ?_
  refine stops_bind (hask _ _) fun newest => ?_
  exact stops_bind (stops_mapError nofun) fun _ => nofun

/-- The loop opens one project after another, unless a probe fails or there are too many
windows. -/
theorem discoverFrom_complete (raised : Option Raised) (roll : Roll ProjectRow String)
    (specs : List WindowSpec) (hspecs : specs.length ≤ maxTaskSpecs) (rows : List ProjectRow) :
    let found := scope.discoverFrom casefold ask positions raised roll specs rows
    let new := (opened casefold scope roll rows).flatMap (specsOf ask positions)
    found.specs.length ≤ maxTaskSpecs ∧
      (found.ending = .complete ↔
        (∀ key ∈ opened casefold scope roll rows,
          ∃ ws, projectSpecs ask positions key = .ok ws) ∧
        specs.length + new.length ≤ maxTaskSpecs ∧
        scope.ending casefold raised (callAll (scope.verdict casefold) rows roll) = .complete) ∧
      (found.ending = .complete → found.specs = specs ++ new) := by
  induction rows generalizing roll specs with
  | nil => simp [discoverFrom, opened, callAll, hspecs]
  | cons row rows ih =>
      rw [discoverFrom, opened, callAll_cons]
      cases hkey : if takes (scope.verdict casefold) roll row then row.projectKey else none with
      | none => exact ih (call (scope.verdict casefold) roll row) specs hspecs
      | some key =>
          cases hnew : projectSpecs ask positions key with
          | error ending =>
              have hending : ending ≠ .complete := fun h =>
                stops_projectSpecs key (h ▸ hnew)
              simp [hspecs, hnew, hending]
          | ok new =>
              have hof : specsOf ask positions key = new := by simp [specsOf, hnew, Except.toOption]
              simp only [hnew, Option.toList_some, List.singleton_append, List.flatMap_cons,
                List.length_append, hof, List.forall_mem_cons]
              by_cases hmany : maxTaskSpecs < specs.length + new.length
              · rw [if_pos hmany]
                refine ⟨List.length_take_le _ _, iff_of_false (by simp) ?_, by simp⟩
                rintro ⟨-, hfew, -⟩
                omega
              · have hfew : (specs ++ new).length ≤ maxTaskSpecs := by
                  rw [List.length_append]
                  omega
                obtain ⟨hlength, hcomplete, hall⟩ :=
                  ih (call (scope.verdict casefold) roll row) (specs ++ new) hfew
                rw [if_neg hmany]
                refine ⟨hlength, ?_, ?_⟩
                · rw [hcomplete, List.length_append, Nat.add_assoc]
                  simp
                · intro h
                  rw [hall h, List.append_assoc]

theorem ending_complete_iff (raised : Option Raised) (roll : Roll ProjectRow String) :
    scope.ending casefold raised roll = .complete ↔ raised = none ∧
      (∀ key ∈ scope.wanted casefold, key ∈ roll.ids) ∧ roll.faulty = false := by
  rw [← missingKeys_eq_nil_iff]
  unfold ending
  cases raised with
  | some exception => simp
  | none =>
      dsimp only
      split_ifs with h₁ h₂ <;> simp_all

/-- Discovery succeeds exactly when the listing came to its end with every project that was
configured, each project with a key of its own, no probe failed and the windows are few
enough. Then the tasks are the windows of the projects to scan, one project after another.
However it ends, there are at most 5000. -/
theorem projects_accounted (casefold : String → String)
    (ask : ProjectKey → Probe → Except Raised (Option Answer))
    (positions : List (SourceCursor ℕ)) (scope : ProjectScope) (projects : Listing ProjectRow) :
    let found := scope.discover casefold ask positions projects
    let keys := scope.keys casefold projects.rows
    (found.ending = .complete ↔ projects.raised = none ∧
        scope.Listed casefold projects.rows ∧ scope.Identified casefold projects.rows ∧
        (∀ key ∈ keys, ∃ ws, projectSpecs ask positions key = .ok ws) ∧
        (keys.flatMap (specsOf ask positions)).length ≤ maxTaskSpecs) ∧
      (found.ending = .complete → found.specs = keys.flatMap (specsOf ask positions)) ∧
      found.specs.length ≤ maxTaskSpecs := by
  intro found keys
  obtain ⟨hlength, hcomplete, hall⟩ := @discoverFrom_complete casefold ask positions scope
    projects.raised {} [] (Nat.zero_le _) projects.rows
  have hopened : scope.Identified casefold projects.rows →
      opened casefold scope {} projects.rows = keys ∧
      (callAll (scope.verdict casefold) projects.rows {}).ids =
        (projects.rows.filter (scope.Wants casefold)).map fun row => casefold (strip row.key) := by
    intro h
    have htaken : (callAll (scope.verdict casefold) projects.rows {}).taken =
        projects.rows.filter (scope.Wants casefold) := by
      rw [taken_of_distinct (distinct_verdict_iff.2 h)]
      refine List.filter_congr fun row hrow => decide_eq_decide.2 ?_
      rw [InScope, verdict_eq, if_neg (by simp [h.key row hrow])]
      split_ifs with hw <;> simp [hw]
    refine ⟨?_, ?_⟩
    · have := @filterMap_taken casefold scope {} projects.rows
      rw [htaken] at this
      exact this.symm
    · rw [ids_callAll, htaken]
  rw [ending_complete_iff, faulty_eq_false_iff, distinct_verdict_iff] at hcomplete
  refine ⟨?_, ?_, hlength⟩
  · constructor
    · intro h
      obtain ⟨hok, hfew, hraised, hmem, hident⟩ := hcomplete.1 h
      obtain ⟨hkeys, hids⟩ := hopened hident
      rw [hkeys] at hok hfew
      refine ⟨hraised, ?_, hident, hok, by simpa using hfew⟩
      intro key hkey
      have := hmem key hkey
      rw [hids] at this
      obtain ⟨row, hrow, heq⟩ := List.mem_map.1 this
      exact ⟨row, (List.mem_filter.1 hrow).1, of_decide_eq_true (List.mem_filter.1 hrow).2, heq⟩
    · rintro ⟨hraised, hlisted, hident, hok, hfew⟩
      obtain ⟨hkeys, hids⟩ := hopened hident
      refine hcomplete.2 ?_
      rw [hkeys, hids]
      refine ⟨hok, by simpa using hfew, hraised, ?_, hident⟩
      intro key hkey
      obtain ⟨row, hrow, hw, heq⟩ := hlisted key hkey
      exact List.mem_map.2 ⟨row, List.mem_filter.2 ⟨hrow, decide_eq_true hw⟩, heq⟩
  · intro h
    have := hall h
    rwa [(hopened (hcomplete.1 h).2.2.2.2).1] at this

end ProjectScope
end Windows
end Jira
end IcebergSST
