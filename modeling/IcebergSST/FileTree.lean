import IcebergSST.PyText
import IcebergSST.Suppression

/-!
# A mounted share

What the operating system answers about the files below a mount, the identity a file is
known by, and the position a resumed fetch compares. Names are as Python holds them:
sequences of code points, with a lone surrogate for a byte that is not valid UTF-8.
-/

namespace IcebergSST

def slash : ℕ := 0x2f

def dot : ℕ := 0x2e

def encodes (s : PyStr) : Bool := s.all fun c => !(0xd800 ≤ c && c ≤ 0xdfff)

/-- What a directory entry can be called. -/
abbrev Name := {s : PyStr // s ≠ [] ∧ slash ∉ s}

abbrev PosixPath := List Name

/-- A segment of a path; an empty one and a lone dot are dropped. -/
def Name.of? (s : PyStr) : Option Name :=
  if h : s ≠ [] ∧ slash ∉ s then if s = [dot] then none else some ⟨s, h⟩ else none

def asPosix (p : List Name) : PyStr :=
  if p = [] then [dot] else [slash].intercalate (p.map Subtype.val)

def joinpath (path : PosixPath) (s : PyStr) : PosixPath :=
  let parts := (s.splitOn slash).filterMap Name.of?
  if s.head? = some slash then parts else path ++ parts

/-- A key as the path segments the walk actually orders by. -/
def Fileshare.position (key : PyStr) : List PyStr := key.splitOn slash

theorem Fileshare.position_asPosix {p : List Name} (h : p ≠ []) :
    Fileshare.position (asPosix p) = p.map Subtype.val := by
  rw [position, asPosix, if_neg h]
  apply List.splitOn_intercalate
  · intro s hs
    obtain ⟨name, -, rfl⟩ := List.mem_map.1 hs
    exact name.2.2
  · exact fun hnil => h (List.map_eq_nil_iff.1 hnil)

theorem asPosix_ne_nil (p : List Name) : asPosix p ≠ [] := by
  unfold asPosix
  split_ifs with h
  · simp
  · obtain ⟨name, rest, rfl⟩ := List.exists_cons_of_ne_nil h
    cases rest with
    | nil => simpa using name.2.1
    | cons next rest => simp [List.intercalate_cons_cons]

theorem encodes_append (s t : PyStr) : encodes (s ++ t) = (encodes s && encodes t) := by
  simp [encodes]

theorem encodes_intercalate (segments : List PyStr) :
    encodes ([slash].intercalate segments) = segments.all encodes := by
  induction segments with
  | nil => rfl
  | cons segment segments ih =>
      cases segments with
      | nil => simp
      | cons next segments =>
          have hslash : encodes [slash] = true := by decide
          rw [List.intercalate_cons_cons, encodes_append, encodes_append, hslash, ih,
            Bool.and_true]
          rfl

theorem encodes_splitOn (s : PyStr) : (s.splitOn slash).all encodes = encodes s := by
  rw [← encodes_intercalate, List.intercalate_splitOn]

inductive FileKind
  | directory
  | regular
  | other
  deriving DecidableEq, Repr

/-- The device and the inode. -/
abbrev FileIdentity := ℕ × ℕ

structure Stat where
  kind : FileKind
  identity : FileIdentity
  size : ℕ
  deriving DecidableEq, Repr

/-- `PermissionError`, or another `OSError`. -/
inductive OsError
  | permission
  | other
  deriving DecidableEq, Repr

/-- A file system that does not change while it is read. `none` is a path that cannot be
resolved; `isSymlink` is asked of an entry of a listing. -/
structure FileSystem where
  scandir : PosixPath → Except OsError (List Name)
  isSymlink : PosixPath → Except OsError Bool
  resolve (strict : Bool) : PosixPath → Option PosixPath
  stat : PosixPath → Except OsError Stat
  readBytes : PosixPath → Except OsError (List UInt8)
  scandir_nodup : ∀ {d names}, scandir d = .ok names → names.Nodup
  /-- What is found under a resolved path is found under no link. -/
  resolve_found : ∀ {strict p r i}, resolve strict p = some r → stat r = .ok i →
    resolve false r = some r
  /-- Only a link leads elsewhere. -/
  resolve_child : ∀ {d names n}, resolve false d = some d → scandir d = .ok names →
    n ∈ names → isSymlink (d ++ [n]) = .ok false → resolve false (d ++ [n]) = some (d ++ [n])

/-- No link leads back to itself, and no directory is mounted twice. -/
structure FileSystem.IsTree (t : FileSystem) : Prop where
  resolve_resolved : ∀ {strict p r}, t.resolve strict p = some r → t.resolve false r = some r
  /-- A directory of a tree is in one place. -/
  one_place : ∀ {p q i j}, t.resolve false p = some p → t.resolve false q = some q →
    t.stat p = .ok i → t.stat q = .ok j → i.kind = .directory → j.kind = .directory →
    i.identity = j.identity → p = q

structure FileTree extends FileSystem where
  isTree : toFileSystem.IsTree

namespace FileSystem

variable (t : FileSystem)

def isDir (path : PosixPath) : Bool :=
  match t.stat path with
  | .ok info => info.kind = .directory
  | .error _ => false

/-- `candidate` resolved, or `none` if it is not inside `root`. -/
def contained (root candidate : PosixPath) : Option PosixPath :=
  match t.resolve false candidate, t.resolve false root with
  | some resolved, some base =>
      if resolved = base ∨ base <+: resolved then some resolved else none
  | _, _ => none

/-- A path's identity: POSIX, relative to the mount, no leading slash. -/
def key (mount path : PosixPath) : PyStr :=
  match t.resolve false path, t.resolve false mount with
  | some resolved, some base =>
      if base <+: resolved then asPosix (resolved.drop base.length)
      else asPosix path.getLast?.toList
  | _, _ => asPosix path.getLast?.toList

variable {t} {root mount p r : PosixPath}

theorem prefix_of_contained {base : PosixPath} (h : t.contained root p = some r)
    (hbase : t.resolve false root = some base) : base <+: r := by
  unfold contained at h
  rw [hbase] at h
  split at h
  · obtain rfl := Option.some.inj ‹some base = _›
    split_ifs at h with hin
    obtain rfl := Option.some.inj h
    rcases hin with rfl | hin
    · exact List.prefix_rfl
    · exact hin
  · cases h

theorem resolve_of_contained (h : t.contained root p = some r) : t.resolve false p = some r := by
  unfold contained at h
  split at h
  · split_ifs at h
    rw [‹t.resolve false p = _›, h]
  · cases h

theorem key_ne_nil : t.key mount p ≠ [] := by
  unfold key
  split
  · split_ifs <;> exact asPosix_ne_nil _
  · exact asPosix_ne_nil _

theorem key_of_resolve (hmount : t.resolve false mount = some mount)
    (hp : t.resolve false p = some r) (hr : mount <+: r) :
    t.key mount p = asPosix (r.drop mount.length) := by
  simp only [key, hp, hmount, if_pos hr]

end FileSystem

/-- An entry that is neither a directory nor a link. -/
structure PlainEntry where
  name : Name
  regular : Bool := true
  content : Except OsError (List UInt8)

def PlainEntry.stat (e : PlainEntry) : Stat where
  kind := if e.regular then .regular else .other
  identity := (0, 1)
  size := match e.content with
    | .ok data => data.length
    | .error _ => 0

def FileTree.flat (directory : PosixPath) (entries : List PlainEntry)
    (hnames : (entries.map PlainEntry.name).Nodup) : FileTree where
  scandir p := if p = directory then .ok (entries.map PlainEntry.name) else .error .other
  isSymlink _ := .ok false
  resolve _ p := some p
  stat p :=
    if p = directory then .ok { kind := .directory, identity := (0, 0), size := 0 }
    else
      match entries.find? (fun e => directory ++ [e.name] = p) with
      | some e => .ok e.stat
      | none => .error .other
  readBytes p :=
    match entries.find? (fun e => directory ++ [e.name] = p) with
    | some e => e.content
    | none => .error .other
  scandir_nodup := by
    intro d names h
    split_ifs at h
    exact Except.ok.inj h ▸ hnames
  resolve_found := fun _ _ => rfl
  resolve_child := fun _ _ _ _ => rfl
  isTree := ⟨fun _ => rfl, by
    have honly : ∀ {p : PosixPath} {i : Stat}, (if p = directory
        then Except.ok { kind := .directory, identity := (0, 0), size := 0 }
        else match entries.find? (fun e => directory ++ [e.name] = p) with
          | some e => .ok e.stat
          | none => (.error .other : Except OsError Stat)) = .ok i →
        i.kind = .directory → p = directory := by
      intro p i h hkind
      by_contra hp
      rw [if_neg hp] at h
      split at h
      · rename_i e _
        obtain rfl := Except.ok.inj h
        cases hregular : e.regular <;> simp [PlainEntry.stat, hregular] at hkind
      · cases h
    intro p q i j _ _ hi hj hik hjk _
    exact (honly hi hik).trans (honly hj hjk).symm⟩

def GlobItem.acceptsCode (c : ℕ) : GlobItem → Bool
  | .star | .any => true
  | .set negated ranges => ranges.any (fun r => r.1.toNat ≤ c && c ≤ r.2.toNat) != negated
  | .lit d => c = d.toNat

def globMatchesCodes : List GlobItem → PyStr → Bool
  | [] => List.isEmpty
  | .star :: items => fun cs => cs.tails.any (globMatchesCodes items)
  | item :: items => fun
      | [] => false
      | c :: cs => item.acceptsCode c && globMatchesCodes items cs

def fnmatch (name : PyStr) (pattern : String) : Bool :=
  globMatchesCodes (globItems pattern.length pattern.toList) name

structure ShareConfig where
  mountPath : PosixPath
  includes : List String := []
  excludes : List String := []
  followSymlinks : Bool := false
  maxFileBytes : ℤ

/-- Whether include/exclude let this path through. Exclude wins. -/
def ShareConfig.selected (config : ShareConfig) (key : PyStr) : Bool :=
  if config.excludes.any (fnmatch key) then false
  else config.includes.isEmpty || config.includes.any (fnmatch key)

namespace FileSystem

variable (t : FileSystem)

/-- `none` is a `ConnectorError`: the share is not mounted, or not a directory. -/
def resolvedMount (config : ShareConfig) : Option PosixPath :=
  (t.resolve true config.mountPath).filter t.isDir

/-- The root a fetch walks; `none` is a `ConnectorError`: it escapes the mount. -/
def shareRoot (mount : PosixPath) (rootName : PyStr) : Option PosixPath :=
  if rootName = [] then some mount else t.contained mount (joinpath mount rootName)

end FileSystem

end IcebergSST
