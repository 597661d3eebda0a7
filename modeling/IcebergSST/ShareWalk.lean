import IcebergSST.Extraction
import IcebergSST.Library.StackWalk

/-!
# Walking a share

The walk of one root keeps directories and files on one stack, in the order of their
names. What it comes to it either hands out as a file to read or records: an object is
skipped or failed while its directory is listed, a directory when it is its turn. `order`
tells the same walk by recursion on the depth.
-/

namespace IcebergSST

structure WalkRoot where
  tree : FileSystem
  config : ShareConfig
  mount : PosixPath
  root : PosixPath

/-- `none` is a `ConnectorError`: the mount is not readable, or the root escapes it. -/
def FileSystem.walkRoot? (t : FileSystem) (config : ShareConfig) (rootName : PyStr) :
    Option WalkRoot :=
  (t.resolvedMount config).bind fun mount =>
    (t.shareRoot mount rootName).map fun root => ⟨t, config, mount, root⟩

/-- The mount and the root of a fetch that found both, on a tree. -/
structure Share extends WalkRoot where
  isTree : tree.IsTree
  mount_resolved : tree.resolve false mount = some mount
  root_resolved : tree.resolve false root = some root
  inside : mount <+: root

instance : Coe Share WalkRoot := ⟨Share.toWalkRoot⟩

def FileTree.share? (t : FileTree) (config : ShareConfig) (rootName : PyStr) : Option Share :=
  match hmount : t.resolvedMount config with
  | none => none
  | some mount =>
      match hroot : t.shareRoot mount rootName with
      | none => none
      | some root =>
          have hresolved : t.resolve false mount = some mount :=
            t.isTree.resolve_resolved (Option.filter_eq_some_iff.1 hmount).1
          some
            { tree := t.toFileSystem
              config
              mount
              root
              isTree := t.isTree
              mount_resolved := hresolved
              root_resolved := by
                unfold FileSystem.shareRoot at hroot
                split_ifs at hroot
                · exact Option.some.inj hroot ▸ hresolved
                · exact t.isTree.resolve_resolved (FileSystem.resolve_of_contained hroot)
              inside := by
                unfold FileSystem.shareRoot at hroot
                split_ifs at hroot
                · exact Option.some.inj hroot ▸ List.prefix_rfl
                · exact FileSystem.prefix_of_contained hroot hresolved }

/-- On a tree, what the walk is given is a mount and a root inside it. -/
theorem FileTree.share?_toWalkRoot (t : FileTree) (config : ShareConfig) (rootName : PyStr) :
    (t.share? config rootName).map Share.toWalkRoot = t.walkRoot? config rootName := by
  unfold share? FileSystem.walkRoot?
  split
  · simp [*]
  · split
    · simp [*]
    · simp [*]

def Share.flat (config : ShareConfig) (directory : PosixPath) (entries : List PlainEntry)
    (hnames : (entries.map PlainEntry.name).Nodup) : Share where
  tree := (FileTree.flat directory entries hnames).toFileSystem
  config
  mount := directory
  root := directory
  isTree := (FileTree.flat directory entries hnames).isTree
  mount_resolved := rfl
  root_resolved := rfl
  inside := List.prefix_rfl

namespace Fileshare

def maxDepth : ℕ := 64

def maxEntriesPerDirectory : ℕ := 50000

def maxFilesPerSpec : ℕ := 100000

/-- One file the walk decided to look at. -/
structure Entry where
  key : PyStr
  path : PosixPath
  size : ℕ
  key_ne_nil : key ≠ []
  deriving DecidableEq, Repr

inductive ShareReference
  | path (key : PyStr)
  | root (name : PyStr)
  | locator (resourceId : PyStr)
  deriving DecidableEq, Repr

inductive ShareRecord
  | skipped (reason : AllowedReason .skipped) (ref : ShareReference)
  | failed (reason : AllowedReason .failed) (ref : ShareReference)
  | scopeGap (reason : AllowedReason .scopeGap) (ref : ShareReference)
  deriving DecidableEq, Repr

def ShareRecord.ref : ShareRecord → ShareReference
  | .skipped _ ref => ref
  | .failed _ ref => ref
  | .scopeGap _ ref => ref

/-- What a walk does on its way; `raised` is an `OSError` that leaves it. -/
inductive WalkEvent
  | record (r : ShareRecord)
  | entry (e : Entry)
  | raised
  deriving DecidableEq, Repr

/-- What is on the stack: a file, or a directory and its depth. -/
inductive Pending
  | file (e : Entry)
  | directory (path : PosixPath) (depth : ℕ)
  deriving DecidableEq, Repr

structure WalkState where
  seen : List FileIdentity
  files : ℕ := 0

inductive Look
  | raised
  | recorded (r : ShareRecord)
  | directory (path : PosixPath) (identity : FileIdentity)
  | file (e : Entry)
  deriving DecidableEq, Repr

end Fileshare

open Fileshare

namespace WalkRoot

variable (s : WalkRoot)

def key (path : PosixPath) : PyStr := s.tree.key s.mount path

def rootStr : PyStr := slash :: if s.root = [] then [] else asPosix s.root

def skip (path : PosixPath) : ShareRecord :=
  .skipped ⟨.unsupportedType, rfl⟩ (.path (s.key path))

def look (child : PosixPath) : Look :=
  match s.tree.isSymlink child with
  | .error _ => .raised
  | .ok link =>
      if link && !s.config.followSymlinks then .recorded (s.skip child)
      else
        match s.tree.contained s.root child with
        | none => .recorded (s.skip child)
        | some resolved =>
            match s.tree.stat resolved with
            | .error _ => .recorded (.failed ⟨.missingResource, rfl⟩ (.path (s.key child)))
            | .ok info =>
                match info.kind with
                | .directory => .directory resolved info.identity
                | .other => .recorded (s.skip child)
                | .regular =>
                    if s.config.selected (s.key child) then
                      .file
                        { key := s.key child
                          path := resolved
                          size := info.size
                          key_ne_nil := FileSystem.key_ne_nil }
                    else .recorded (s.skip child)

/-- An entry the policy lets the walk follow: not a link, or links are followed, and
inside the root. -/
structure Admitted (child resolved : PosixPath) (info : Stat) : Prop where
  link : ∃ link, s.tree.isSymlink child = .ok link ∧ (link → s.config.followSymlinks)
  contained : s.tree.contained s.root child = some resolved
  stat : s.tree.stat resolved = .ok info

variable {s} in
theorem look_cases (child : PosixPath) :
    s.look child = .raised ∨ (∃ r, s.look child = .recorded r) ∨
      ∃ resolved info, s.Admitted child resolved info ∧
        (info.kind = .directory ∧ s.look child = .directory resolved info.identity ∨
          info.kind = .regular ∧ s.config.selected (s.key child) ∧
            s.look child = .file ⟨s.key child, resolved, info.size, FileSystem.key_ne_nil⟩) := by
  unfold look
  split
  · exact Or.inl rfl
  · rename_i link hlink
    by_cases hfollowed : (link && !s.config.followSymlinks) = true
    · rw [if_pos hfollowed]
      exact Or.inr (Or.inl ⟨_, rfl⟩)
    · rw [if_neg hfollowed]
      split
      · exact Or.inr (Or.inl ⟨_, rfl⟩)
      · rename_i resolved hcontained
        split
        · exact Or.inr (Or.inl ⟨_, rfl⟩)
        · rename_i info hstat
          have hadmitted : s.Admitted child resolved info :=
            ⟨⟨link, hlink, by simpa using hfollowed⟩, hcontained, hstat⟩
          split
          · exact Or.inr (Or.inr ⟨_, _, hadmitted, Or.inl ⟨‹_›, rfl⟩⟩)
          · exact Or.inr (Or.inl ⟨_, rfl⟩)
          · split_ifs with hselected
            · exact Or.inr (Or.inr ⟨_, _, hadmitted, Or.inr ⟨‹_›, hselected, rfl⟩⟩)
            · exact Or.inr (Or.inl ⟨_, rfl⟩)

variable {s} in
theorem look_eq_directory {child path : PosixPath} {identity : FileIdentity}
    (h : s.look child = .directory path identity) :
    ∃ info, s.Admitted child path info ∧ info.kind = .directory ∧ info.identity = identity := by
  rcases s.look_cases child with hl | ⟨r, hl⟩ |
    ⟨resolved, info, hadmitted, ⟨hkind, hl⟩ | ⟨-, -, hl⟩⟩
  · rw [h] at hl
    cases hl
  · rw [h] at hl
    cases hl
  · rw [h] at hl
    obtain ⟨rfl, rfl⟩ := Look.directory.inj hl
    exact ⟨info, hadmitted, hkind, rfl⟩
  · rw [h] at hl
    cases hl

variable {s} in
theorem look_eq_file {child : PosixPath} {e : Entry} (h : s.look child = .file e) :
    ∃ info, s.Admitted child e.path info ∧ info.kind = .regular ∧ e.key = s.key child ∧
      e.size = info.size := by
  rcases s.look_cases child with hl | ⟨r, hl⟩ |
    ⟨resolved, info, hadmitted, ⟨-, hl⟩ | ⟨hkind, -, hl⟩⟩
  · rw [h] at hl
    cases hl
  · rw [h] at hl
    cases hl
  · rw [h] at hl
    cases hl
  · rw [h] at hl
    obtain rfl := Look.file.inj hl
    exact ⟨info, hadmitted, hkind, rfl, rfl⟩

local instance fileIdentity_lawfulBEq : LawfulBEq FileIdentity := inferInstance

/-- One listing, entry by entry: what is recorded, and the children to push with the
directories seen by then. A directory that was seen is passed over. -/
def enlist (directory : PosixPath) (depth : ℕ) :
    List FileIdentity → List Name → List WalkEvent × Option (List Pending × List FileIdentity)
  | seen, [] => ([], some ([], seen))
  | seen, name :: names =>
      match s.look (directory ++ [name]) with
      | .raised => ([.raised], none)
      | .recorded r =>
          let rest := enlist directory depth seen names
          (.record r :: rest.1, rest.2)
      | .directory path identity =>
          if identity ∈ seen then enlist directory depth seen names
          else
            let rest := enlist directory depth (identity :: seen) names
            (rest.1, rest.2.map fun p => (.directory path (depth + 1) :: p.1, p.2))
      | .file e =>
          let rest := enlist directory depth seen names
          (rest.1, rest.2.map fun p => (.file e :: p.1, p.2))

def sortedEntries (names : List Name) : List Name :=
  (names.take maxEntriesPerDirectory).insertionSort (· ≤ ·)

/-- The gap of a directory that was not enumerated to its end. -/
def oversized (directory : PosixPath) (names : List Name) : List WalkEvent :=
  if maxEntriesPerDirectory < names.length then
    [.record (.scopeGap ⟨_, scopeGap_connectorError⟩ (.path (s.key directory)))]
  else []

def turn (w : WalkState) : Pending → WalkTurn WalkState Pending WalkEvent
  | .file e =>
      if maxFilesPerSpec < w.files + 1 then
        { emitted := [.record (.scopeGap ⟨_, scopeGap_connectorError⟩ (.root s.rootStr))]
          next := none }
      else { emitted := [.entry e], next := some ([], { w with files := w.files + 1 }) }
  | .directory path depth =>
      if maxDepth < depth then { emitted := [.record (s.skip path)], next := some ([], w) }
      else
        match s.tree.scandir path with
        | .error .permission =>
            { emitted := [.record (.failed ⟨_, failed_permissionDenied⟩ (.path (s.key path)))]
              next := some ([], w) }
        | .error .other =>
            { emitted := [.record (.failed ⟨_, failed_connectorError⟩ (.path (s.key path)))]
              next := some ([], w) }
        | .ok names =>
            let listed := s.enlist path depth w.seen (sortedEntries names)
            { emitted := s.oversized path names ++ listed.1
              next := listed.2.map fun p => (p.1, { w with seen := p.2 }) }

end WalkRoot

def Fileshare.Pending.rank : Pending → ℕ
  | .file _ => 0
  | .directory _ depth => maxDepth + 2 - depth

namespace WalkRoot

variable {s : WalkRoot} {directory : PosixPath} {depth : ℕ} {seen seen' : List FileIdentity}
  {names : List Name} {children : List Pending} {events : List WalkEvent}

theorem exists_of_mem_enlist
    (h : s.enlist directory depth seen names = (events, some (children, seen'))) :
    ∀ c ∈ children, ∃ name ∈ names,
      (∃ path identity, s.look (directory ++ [name]) = .directory path identity ∧
        c = .directory path (depth + 1)) ∨
      ∃ e, s.look (directory ++ [name]) = .file e ∧ c = .file e := by
  induction names generalizing seen events children with
  | nil =>
      simp only [enlist, Prod.mk.injEq, Option.some.injEq] at h
      simp [← h.2.1]
  | cons name names ih =>
      have htail : ∀ {seen₁ : List FileIdentity} {events₁ : List WalkEvent} {rest : List Pending},
          s.enlist directory depth seen₁ names = (events₁, some (rest, seen')) → ∀ c ∈ rest,
            ∃ n ∈ name :: names,
              (∃ path identity, s.look (directory ++ [n]) = .directory path identity ∧
                c = .directory path (depth + 1)) ∨
              ∃ e, s.look (directory ++ [n]) = .file e ∧ c = .file e := by
        intro seen₁ events₁ rest hrest c hc
        obtain ⟨n, hn, hled⟩ := ih hrest c hc
        exact ⟨n, List.mem_cons_of_mem name hn, hled⟩
      simp only [enlist] at h
      cases hlook : s.look (directory ++ [name]) with
      | raised => simp [hlook] at h
      | recorded r =>
          simp only [hlook, Prod.mk.injEq] at h
          exact htail (Prod.ext rfl h.2)
      | directory path identity =>
          simp only [hlook] at h
          split_ifs at h
          · exact htail h
          · simp only [Prod.mk.injEq, Option.map_eq_some_iff, Prod.exists] at h
            obtain ⟨-, rest, seen₁, hrest, rfl, rfl⟩ := h
            intro c hc
            rcases List.mem_cons.1 hc with rfl | hc
            · exact ⟨name, List.mem_cons_self, Or.inl ⟨path, identity, hlook, rfl⟩⟩
            · exact htail (Prod.ext rfl hrest) c hc
      | file e =>
          simp only [hlook, Prod.mk.injEq, Option.map_eq_some_iff, Prod.exists] at h
          obtain ⟨-, rest, seen₁, hrest, rfl, rfl⟩ := h
          intro c hc
          rcases List.mem_cons.1 hc with rfl | hc
          · exact ⟨name, List.mem_cons_self, Or.inr ⟨e, hlook, rfl⟩⟩
          · exact htail (Prod.ext rfl hrest) c hc

theorem rank_of_enlist
    (h : s.enlist directory depth seen names = (events, some (children, seen'))) :
    ∀ c ∈ children, c.rank ≤ maxDepth + 1 - depth := by
  intro c hc
  obtain ⟨name, -, ⟨path, identity, -, rfl⟩ | ⟨e, -, rfl⟩⟩ := exists_of_mem_enlist h c hc
  · simp only [Pending.rank]
    omega
  · exact Nat.zero_le _

theorem entry_notMem_enlist (e : Entry) : .entry e ∉ (s.enlist directory depth seen names).1 := by
  induction names generalizing seen with
  | nil => simp [enlist]
  | cons name names ih =>
      simp only [enlist]
      cases s.look (directory ++ [name]) with
      | raised => simp
      | recorded r => simpa using ih
      | directory path identity =>
          dsimp only
          split_ifs
          · exact ih
          · exact ih
      | file e => exact ih

theorem mem_sortedEntries {listing : List Name} {n : Name} (h : n ∈ sortedEntries listing) :
    n ∈ listing :=
  List.mem_of_mem_take ((List.mem_insertionSort _).1 h)

/-- A directory is recorded at its turn, or listed. -/
theorem turn_directory_cases (w : WalkState) (path : PosixPath) (depth : ℕ) :
    (∃ r, s.turn w (.directory path depth) = ⟨[.record r], some ([], w)⟩) ∨
      ∃ names, depth ≤ maxDepth ∧ s.tree.scandir path = .ok names ∧
        s.turn w (.directory path depth) =
          ⟨s.oversized path names ++ (s.enlist path depth w.seen (sortedEntries names)).1,
            (s.enlist path depth w.seen (sortedEntries names)).2.map
              fun p => (p.1, { w with seen := p.2 })⟩ := by
  simp only [turn]
  split_ifs with hdeep
  · exact Or.inl ⟨_, rfl⟩
  · split
    · exact Or.inl ⟨_, rfl⟩
    · exact Or.inl ⟨_, rfl⟩
    · exact Or.inr ⟨_, not_lt.1 hdeep, ‹_›, rfl⟩

/-- Files are pushed while a directory is listed, and handed out at their own turn. -/
theorem entry_notMem_turn_directory (w : WalkState) (path : PosixPath) (depth : ℕ) (e : Entry) :
    .entry e ∉ (s.turn w (.directory path depth)).emitted := by
  rcases turn_directory_cases (s := s) w path depth with ⟨r, hturn⟩ | ⟨names, -, -, hturn⟩
  · simp [hturn]
  · have hgap : .entry e ∉ s.oversized path names := by
      unfold oversized
      split_ifs <;> simp
    rw [hturn]
    exact fun he => (List.mem_append.1 he).elim hgap (entry_notMem_enlist e)

theorem rank_of_turn {w w' : WalkState} {a : Pending}
    (h : (s.turn w a).next = some (children, w')) : ∀ c ∈ children, c.rank < a.rank := by
  cases a with
  | file e =>
      simp only [turn] at h
      split_ifs at h
      simp only [Option.some.injEq, Prod.mk.injEq] at h
      simp [← h.1]
  | directory path depth =>
      rcases turn_directory_cases (s := s) w path depth with ⟨r, hturn⟩ | ⟨names, hdepth, -, hturn⟩
      · rw [hturn] at h
        obtain ⟨rfl, -⟩ := Prod.mk.inj (Option.some.inj h)
        simp
      · rw [hturn] at h
        simp only [Option.map_eq_some_iff, Prod.mk.injEq, Prod.exists] at h
        obtain ⟨children', seen', hlisted, rfl, -⟩ := h
        intro c hc
        have hle := rank_of_enlist (Prod.ext rfl hlisted) c hc
        rw [show (Pending.directory path depth).rank = maxDepth + 2 - depth from rfl]
        omega

variable (s)

def walker : StackWalk WalkState Pending WalkEvent where
  turn := s.turn
  rank := Pending.rank
  rank_lt := rank_of_turn

/-- The root's identity is registered before the walk comes to it. -/
def walkStart : WalkState where
  seen :=
    match s.tree.stat s.root with
    | .ok info => [info.identity]
    | .error _ => []

def walk : List WalkEvent := (s.walker.run s.walkStart [.directory s.root 0]).1

/-- The objects of the tree in the order of a depth-first walk: a directory's own records
while it is listed, then its files and subdirectories sorted by name. -/
def order : List WalkEvent :=
  (s.walker.visit (maxDepth + 3) s.walkStart (.directory s.root 0)).1

theorem walk_eq_order : s.walk = s.order := by
  have hrank : ∀ a ∈ [Pending.directory s.root 0], s.walker.rank a < maxDepth + 3 := by
    simp [walker, Pending.rank]
  rw [walk, StackWalk.run_eq_follow hrank, order]
  simp only [StackWalk.follow]
  rcases s.walker.visit _ _ _ with ⟨emitted, _ | w⟩
  · rfl
  · simp

end WalkRoot

end IcebergSST
