import IcebergSST.History
import IcebergSST.ShareWalk

/-!
# Fetching a share

`fetch` serves the events of the walk one after another: a record is recorded, a file is
read and its position published, unless the checkpoint the fetch resumes from covers it.
Its events are calls of the connector protocol, so what the engine makes of any connector
it makes of this one.
-/

namespace IcebergSST

namespace Fileshare

/-- The identity of a unit's file. A blank one cannot be built. -/
structure CoarseLocator where
  resourceId : PyStr
  not_blank : blank resourceId = false
  deriving DecidableEq

/-- One file's text. The path it displays is its resource id. -/
structure ShareUnit where
  locator : CoarseLocator
  text : PyStr
  title : PyStr
  bytes : ℕ
  truncated : Bool
  deriving DecidableEq

def fileshareCheckpointVersion : String := "2"

structure ShareCheckpoint where
  version : String
  /-- The entry of the position, if it is there and a string. -/
  after : Option PyStr
  deriving DecidableEq

/-- The position a resumed fetch continues after, or `none` to start at the top. -/
def resumeKey : Option ShareCheckpoint → Option PyStr
  | none => none
  | some checkpoint =>
      if checkpoint.version ≠ fileshareCheckpointVersion then none
      else checkpoint.after.filter (· ≠ [])

/-- One call of the connector, one unit, or an exception that leaves it. -/
inductive FetchEvent
  | scannedFor (key : PyStr)
  | record (r : ShareRecord)
  | yield (unit : ShareUnit)
  | checkpointAt (c : ShareCheckpoint)
  | raised
  deriving DecidableEq

namespace FetchEvent

def IsUnit : FetchEvent → Bool
  | .yield _ => true
  | _ => false

def IsDisposition : FetchEvent → Bool
  | .scannedFor _ => true
  | .record _ => true
  | _ => false

end FetchEvent

structure UnitDetection (κ : Type) where
  candidates : ShareUnit → List κ
  droppedBelowThreshold : ShareUnit → ℕ
  truncated : ShareUnit → Bool

/-- The call of the connector protocol an event is; none for an exception, which ends the
fetch. -/
def FetchEvent.toConnector {κ ρ : Type} (d : UnitDetection κ) :
    FetchEvent → Option (ConnectorEvent κ ShareReference ShareCheckpoint ρ)
  | .scannedFor _ => some .scannedFor
  | .record (.skipped reason ref) => some (.skippedFor reason .path (some ref))
  | .record (.failed reason ref) => some (.failedFor reason .path (some ref))
  | .record (.scopeGap reason ref) => some (.scopeGapFor reason (some ref))
  | .yield unit =>
      some
        (.yield
          { candidates := d.candidates unit
            droppedBelowThreshold := d.droppedBelowThreshold unit
            truncated := d.truncated unit
            displayTruncated := unit.truncated
            kind := .path
            locator := .locator unit.locator.resourceId })
  | .checkpointAt c => some (.checkpointAt c)
  | .raised => none

/-- Whether the attempt that published the checkpoint has delivered this file. -/
def covered (resumeAfter : Option PyStr) (key : PyStr) : Bool :=
  resumeAfter.any fun after => position key ≤ position after

/-- Map one extraction outcome onto the manifest. -/
def recordExtraction (key : PyStr) (o : ExtractionOutcome) (h : o ≠ .extracted) : ShareRecord :=
  match hreason : o.coverageReason with
  | none => absurd hreason (by cases o <;> simp_all [ExtractionOutcome.coverageReason])
  | some reason =>
      have hallowed := o.coverageReason_allowed hreason
      if hi : o.IsIncomplete then
        .failed ⟨reason, by simpa [ExtractionOutcome.disposition, hi] using hallowed⟩ (.path key)
      else
        .skipped ⟨reason, by simpa [ExtractionOutcome.disposition, hi] using hallowed⟩ (.path key)

end Fileshare

open Fileshare

theorem Readers.not_blank_of_extracted {r : Readers} {limits : ExtractionLimits}
    {data : List UInt8} {key : PyStr}
    (h : (r.extractText limits data (pathName key)).outcome = .extracted) : blank key = false := by
  obtain ⟨kind, _, hkind, _⟩ := extractText_extracted h
  by_contra hblank
  rw [classify_of_blank (by simpa using hblank)] at hkind
  cases hkind

structure FileshareConnector where
  limits : ExtractionLimits := {}
  readers : Readers

namespace FileshareConnector

variable (c : FileshareConnector) (s : WalkRoot)

/-- One file, through the same extraction pipeline every connector uses. -/
def read (e : Entry) : List FetchEvent :=
  if s.config.maxFileBytes < e.size then
    [.record (.failed ⟨.sizeLimit, rfl⟩ (.path e.key))]
  else
    match s.tree.readBytes e.path with
    | .error .permission => [.record (.failed ⟨_, failed_permissionDenied⟩ (.path e.key))]
    | .error .other => [.record (.failed ⟨_, failed_connectorError⟩ (.path e.key))]
    | .ok data =>
        let extracted := c.readers.extractText c.limits data (pathName e.key)
        if h : extracted.outcome = .extracted then
          [.scannedFor e.key,
            .yield
              { locator := ⟨e.key, Readers.not_blank_of_extracted h⟩
                text := extracted.text
                title := pathName e.key
                bytes := e.size
                truncated := extracted.truncated }]
        else [.record (recordExtraction e.key extracted.outcome h)]

def serve (resumeAfter : Option PyStr) : WalkEvent → List FetchEvent
  | .record r => [.record r]
  | .raised => [.raised]
  | .entry e =>
      if covered resumeAfter e.key then []
      else c.read s e ++ [.checkpointAt ⟨fileshareCheckpointVersion, some e.key⟩]

/-- The events of a walk with the turn of the walk that each belongs to. -/
def serveFrom (resumeAfter : Option PyStr) : ℕ → List WalkEvent → List (ℕ × FetchEvent)
  | _, [] => []
  | turn, ev :: events =>
      (c.serve s resumeAfter ev).map (turn, ·) ++ serveFrom resumeAfter (turn + 1) events

def fetchLog (rootName : PyStr) (resumeFrom : Option ShareCheckpoint) : List (ℕ × FetchEvent) :=
  if s.tree.isDir s.root then c.serveFrom s (resumeKey resumeFrom) 0 s.walk
  else [(0, .record (.scopeGap ⟨_, scopeGap_missingResource⟩ (.root rootName)))]

/-- `none` is a `ConnectorError`. -/
def fetch (t : FileSystem) (config : ShareConfig) (rootName : PyStr)
    (resumeFrom : Option ShareCheckpoint) : Option (List FetchEvent) :=
  (t.walkRoot? config rootName).map fun s => (c.fetchLog s rootName resumeFrom).map Prod.snd

variable {c s}

theorem fetchLog_of_isDir (h : s.tree.isDir s.root) (rootName : PyStr)
    (resumeFrom : Option ShareCheckpoint) :
    c.fetchLog s rootName resumeFrom = c.serveFrom s (resumeKey resumeFrom) 0 s.order := by
  rw [fetchLog, if_pos h, s.walk_eq_order]

structure UnitOf (c : FileshareConnector) (s : WalkRoot) (e : Entry) (u : ShareUnit)
    (data : List UInt8) : Prop where
  size : e.size ≤ s.config.maxFileBytes
  read : s.tree.readBytes e.path = .ok data
  extracted : (c.readers.extractText c.limits data (pathName e.key)).outcome = .extracted
  key : u.locator.resourceId = e.key
  text : u.text = (c.readers.extractText c.limits data (pathName e.key)).text
  title : u.title = pathName e.key

theorem ref_recordExtraction (key : PyStr) (o : ExtractionOutcome) (h : o ≠ .extracted) :
    (recordExtraction key o h).ref = .path key := by
  unfold recordExtraction
  split
  · rename_i hreason
    exact absurd hreason (by cases o <;> simp_all [ExtractionOutcome.coverageReason])
  · dsimp only
    split_ifs <;> rfl

/-- A file has one disposition, under its key, and a unit with it if it was scanned. -/
theorem read_cases (e : Entry) :
    (∃ r, r.ref = .path e.key ∧ c.read s e = [.record r]) ∨
      ∃ u data, c.UnitOf s e u data ∧ c.read s e = [.scannedFor e.key, .yield u] := by
  unfold read
  split_ifs with hsize
  · exact Or.inl ⟨_, rfl, rfl⟩
  · split
    · exact Or.inl ⟨_, rfl, rfl⟩
    · exact Or.inl ⟨_, rfl, rfl⟩
    · rename_i data hdata
      by_cases h : (c.readers.extractText c.limits data (pathName e.key)).outcome = .extracted
      · simp only [dif_pos h]
        exact Or.inr ⟨_, data, ⟨not_lt.1 hsize, hdata, h, rfl, rfl, rfl⟩, rfl⟩
      · simp only [dif_neg h]
        exact Or.inl ⟨_, ref_recordExtraction _ _ _, rfl⟩

theorem read_of_extracted {e : Entry} {data : List UInt8} (hsize : e.size ≤ s.config.maxFileBytes)
    (hdata : s.tree.readBytes e.path = .ok data)
    (h : (c.readers.extractText c.limits data (pathName e.key)).outcome = .extracted) :
    ∃ u, c.UnitOf s e u data ∧ c.read s e = [.scannedFor e.key, .yield u] := by
  simp only [read, if_neg (not_lt.2 hsize), hdata, dif_pos h]
  exact ⟨_, ⟨hsize, hdata, h, rfl, rfl, rfl⟩, rfl⟩

theorem exists_disposition_mem_read (e : Entry) : ∃ ev ∈ c.read s e, ev.IsDisposition := by
  rcases c.read_cases (s := s) e with ⟨r, -, h⟩ | ⟨u, _, -, h⟩ <;>
    simp [h, FetchEvent.IsDisposition]

theorem checkpointAt_notMem_read (e : Entry) (cp : ShareCheckpoint) :
    FetchEvent.checkpointAt cp ∉ c.read s e := by
  rcases c.read_cases (s := s) e with ⟨r, -, h⟩ | ⟨u, _, -, h⟩ <;> simp [h]

theorem serveFrom_append (resumeAfter : Option PyStr) (turn : ℕ) (events events' : List WalkEvent) :
    c.serveFrom s resumeAfter turn (events ++ events') =
      c.serveFrom s resumeAfter turn events ++
        c.serveFrom s resumeAfter (turn + events.length) events' := by
  induction events generalizing turn with
  | nil => rfl
  | cons ev events ih =>
      simp only [List.cons_append, serveFrom, ih, List.append_assoc, List.length_cons]
      rw [Nat.add_assoc, Nat.add_comm 1]

theorem mem_serveFrom {resumeAfter : Option PyStr} {turn : ℕ} {events : List WalkEvent}
    {x : ℕ × FetchEvent} :
    x ∈ c.serveFrom s resumeAfter turn events ↔
      ∃ i ev, events[i]? = some ev ∧ x.1 = turn + i ∧ x.2 ∈ c.serve s resumeAfter ev := by
  induction events generalizing turn with
  | nil => simp [serveFrom]
  | cons ev events ih =>
      simp only [serveFrom, List.mem_append, List.mem_map, ih]
      constructor
      · rintro (⟨event, hevent, rfl⟩ | ⟨i, ev', hi, hturn, hevent⟩)
        · exact ⟨0, ev, rfl, rfl, hevent⟩
        · exact ⟨i + 1, ev', by simpa using hi, by omega, hevent⟩
      · rintro ⟨i, ev', hi, hturn, hevent⟩
        cases i with
        | zero =>
            obtain rfl : ev = ev' := by simpa using hi
            exact Or.inl ⟨x.2, hevent, Prod.ext hturn.symm rfl⟩
        | succ i => exact Or.inr ⟨i, ev', by simpa using hi, by omega, hevent⟩

theorem serve_split {turn n : ℕ} {ev : WalkEvent} {cp : ShareCheckpoint}
    {before after : List (ℕ × FetchEvent)}
    (h : (c.serve s none ev).map (n, ·) = before ++ (turn, .checkpointAt cp) :: after) :
    ∃ e, ev = .entry e ∧ turn = n ∧ cp = ⟨fileshareCheckpointVersion, some e.key⟩ ∧
      before = (c.read s e).map (n, ·) := by
  cases ev with
  | record r => simp [serve, List.singleton_eq_append_iff] at h
  | raised => simp [serve, List.singleton_eq_append_iff] at h
  | entry e =>
      refine ⟨e, rfl, ?_⟩
      simp only [serve, covered, Option.any_none, Bool.false_eq_true, if_false, List.map_append,
        List.map_cons, List.map_nil] at h
      rcases List.append_eq_append_iff.1 h with ⟨tail, rfl, hlast⟩ | ⟨tail, hread, hlast⟩
      · obtain ⟨rfl, hlast⟩ | ⟨_, hnil⟩ := List.singleton_eq_append_iff.1 hlast
        · simp_all
        · simp at hnil
      · cases tail with
        | nil => simp_all
        | cons x tail =>
            obtain ⟨rfl, -⟩ := List.cons.inj hlast
            have hmem : (turn, FetchEvent.checkpointAt cp) ∈ (c.read s e).map (n, ·) := by
              rw [hread]
              exact List.mem_append_right _ List.mem_cons_self
            obtain ⟨event, hevent, heq⟩ := List.mem_map.1 hmem
            obtain rfl := (Prod.mk.inj heq).2
            exact absurd hevent (checkpointAt_notMem_read e cp)

/-- A checkpoint is published right after the file it names was read. -/
theorem serveFrom_split {turn n : ℕ} {events : List WalkEvent} {cp : ShareCheckpoint}
    {before after : List (ℕ × FetchEvent)}
    (h : c.serveFrom s none n events = before ++ (turn, .checkpointAt cp) :: after) :
    ∃ events₁ e events₂, events = events₁ ++ .entry e :: events₂ ∧ turn = n + events₁.length ∧
      cp = ⟨fileshareCheckpointVersion, some e.key⟩ ∧
      before = c.serveFrom s none n events₁ ++ (c.read s e).map (turn, ·) := by
  induction events generalizing n before with
  | nil => simp [serveFrom] at h
  | cons ev events ih =>
      have hrest : ∀ tail, before = (c.serve s none ev).map (n, ·) ++ tail →
          c.serveFrom s none (n + 1) events = tail ++ (turn, .checkpointAt cp) :: after →
          ∃ events₁ e events₂, ev :: events = events₁ ++ .entry e :: events₂ ∧
            turn = n + events₁.length ∧ cp = ⟨fileshareCheckpointVersion, some e.key⟩ ∧
            before = c.serveFrom s none n events₁ ++ (c.read s e).map (turn, ·) := by
        intro tail hbefore htail
        obtain ⟨events₁, e, events₂, rfl, rfl, hcp, rfl⟩ := ih htail
        refine ⟨ev :: events₁, e, events₂, rfl, ?_, hcp, ?_⟩
        · simp only [List.length_cons]
          omega
        · simp only [hbefore, serveFrom, List.append_assoc]
      rw [serveFrom] at h
      rcases List.append_eq_append_iff.1 h with ⟨tail, hbefore, htail⟩ | ⟨tail, hserve, htail⟩
      · exact hrest tail hbefore htail
      · cases tail with
        | nil => exact hrest [] (by simpa using hserve.symm) (by simpa using htail.symm)
        | cons x tail =>
            obtain ⟨rfl, -⟩ := List.cons.inj htail
            obtain ⟨e, rfl, rfl, hcp, rfl⟩ := serve_split hserve
            exact ⟨[], e, events, rfl, rfl, hcp, rfl⟩

end FileshareConnector

def shareName : Name := ⟨pyStr "share", by decide⟩

def aTxt : PlainEntry where
  name := ⟨pyStr "a.txt", by decide⟩
  content := .ok [0x61]

def bTxt : PlainEntry where
  name := ⟨pyStr "b.txt", by decide⟩
  content := .ok [0x62]

def shareConfig : ShareConfig where
  mountPath := [shareName]
  maxFileBytes := 32 * 1024 * 1024

def asciiConnector : FileshareConnector where
  readers := asciiReaders

def filesShare : Share := .flat shareConfig [shareName] [bTxt, aTxt] (by decide)

end IcebergSST
