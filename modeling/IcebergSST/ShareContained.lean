import IcebergSST.ShareFetch

/-!
# The walk stays inside its root

The file system is any that does not change: links may loop, lead to an ancestor or out of
the root, and a directory may be mounted again below itself.
-/

namespace IcebergSST

open Fileshare

/-- The device and the inode a path leads to. -/
def FileSystem.identity? (t : FileSystem) (path : PosixPath) : Option FileIdentity :=
  (t.stat path).toOption.map Stat.identity

def Fileshare.Pending.directory? : Pending → Option PosixPath
  | .file _ => none
  | .directory path _ => some path

def Fileshare.Pending.listing? : Pending → Option PosixPath
  | .file _ => none
  | .directory path depth => if depth ≤ maxDepth then some path else none

namespace WalkRoot

variable (s : WalkRoot)

/-- No component below the root is a link. -/
def Unlinked (path : PosixPath) : Prop :=
  ∀ d n, s.root <+: d → d ++ [n] <+: path → s.tree.isSymlink (d ++ [n]) = .ok false

/-- A path that is fully resolved, inside the root, and not through a link below the root
unless links are followed. -/
structure Within (kind : FileKind) (path : PosixPath) : Prop where
  found : ∃ info, s.tree.stat path = .ok info ∧ info.kind = kind
  resolved : s.tree.resolve false path = some path
  inside : s.root <+: path
  unlinked : s.config.followSymlinks = false → s.Unlinked path

def PendingWithin : Pending → Prop
  | .file e => s.Within .regular e.path
  | .directory path _ => s.Within .directory path

def identities (items : List Pending) : List FileIdentity :=
  items.filterMap fun a => a.directory?.bind s.tree.identity?

/-- The directories a fetch lists, in its order. -/
def listed : List PosixPath :=
  if s.tree.isDir s.root then
    (s.walker.turns s.walkStart [.directory s.root 0]).filterMap fun t => t.2.listing?
  else []

def opens (resumeAfter : Option PyStr) : WalkEvent → Option PosixPath
  | .entry e =>
      if covered resumeAfter e.key ∨ s.config.maxFileBytes < e.size then none else some e.path
  | .record _ | .raised => none

/-- The files a fetch opens, in its order. -/
def opened (resumeAfter : Option PyStr) : List PosixPath :=
  if s.tree.isDir s.root then s.walk.filterMap (s.opens resumeAfter) else []

/-- The same file system with other contents. -/
def withReads (readBytes : PosixPath → Except OsError (List UInt8)) : WalkRoot :=
  { s with tree := { s.tree with readBytes } }

variable {s} {directory path : PosixPath} {depth : ℕ} {seen seen' : List FileIdentity}
  {names listing : List Name} {children : List Pending} {events : List WalkEvent}

theorem within_root (hdir : s.tree.isDir s.root)
    (hresolved : s.tree.resolve false s.root = some s.root) :
    s.Within .directory s.root where
  found := by
    unfold FileSystem.isDir at hdir
    split at hdir
    · exact ⟨_, ‹_›, of_decide_eq_true hdir⟩
    · cases hdir
  resolved := hresolved
  inside := List.prefix_rfl
  unlinked := by
    intro _ d n hd hn
    have hle := hd.length_le
    have hlt := hn.length_le
    simp only [List.length_append, List.length_singleton] at hlt
    omega

theorem within_child {name : Name} {info : Stat} (hroot : s.tree.resolve false s.root = some s.root)
    (hd : s.Within .directory directory) (hlisting : s.tree.scandir directory = .ok listing)
    (hname : name ∈ listing) (h : s.Admitted (directory ++ [name]) path info) :
    s.Within info.kind path where
  found := ⟨info, h.stat, rfl⟩
  resolved := s.tree.resolve_found (FileSystem.resolve_of_contained h.contained) h.stat
  inside := FileSystem.prefix_of_contained h.contained hroot
  unlinked := by
    intro hoff d n hrootd hprefix
    obtain ⟨link, hlink, hfollowed⟩ := h.link
    have hnot : link = false := by
      by_contra hlinked
      exact absurd (hfollowed (by simpa using hlinked)) (by simp [hoff])
    subst hnot
    have hsame := s.tree.resolve_child hd.resolved hlisting hname hlink
    rw [FileSystem.resolve_of_contained h.contained] at hsame
    obtain rfl := Option.some.inj hsame
    -- the last component is the entry itself, those before it are the directory's
    rcases List.prefix_concat_iff.1 hprefix with heq | hbelow
    · rw [heq]
      exact hlink
    · exact hd.unlinked hoff d n hrootd hbelow

theorem within_of_enlist (hroot : s.tree.resolve false s.root = some s.root)
    (hd : s.Within .directory directory) (hlisting : s.tree.scandir directory = .ok listing)
    (hnames : ∀ name ∈ names, name ∈ listing)
    (h : s.enlist directory depth seen names = (events, some (children, seen'))) :
    ∀ c ∈ children, s.PendingWithin c := by
  intro c hc
  obtain ⟨name, hname, ⟨path, identity, hlook, rfl⟩ | ⟨e, hlook, rfl⟩⟩ :=
    exists_of_mem_enlist h c hc
  · obtain ⟨info, hadmitted, hkind, -⟩ := look_eq_directory hlook
    have hwithin := within_child hroot hd hlisting (hnames name hname) hadmitted
    rw [hkind] at hwithin
    exact hwithin
  · obtain ⟨info, hadmitted, hkind, -, -⟩ := look_eq_file hlook
    have hwithin := within_child hroot hd hlisting (hnames name hname) hadmitted
    rw [hkind] at hwithin
    exact hwithin

theorem within_of_turn {w w' : WalkState} {a : Pending}
    (hroot : s.tree.resolve false s.root = some s.root) (ha : s.PendingWithin a)
    (h : (s.turn w a).next = some (children, w')) : ∀ c ∈ children, s.PendingWithin c := by
  cases a with
  | file e =>
      simp only [turn] at h
      split_ifs at h
      simp only [Option.some.injEq, Prod.mk.injEq] at h
      simp [← h.1]
  | directory path depth =>
      rcases turn_directory_cases (s := s) w path depth with ⟨r, hturn⟩ |
        ⟨listing, -, hlisting, hturn⟩
      · rw [hturn] at h
        obtain ⟨rfl, -⟩ := Prod.mk.inj (Option.some.inj h)
        simp
      · rw [hturn] at h
        simp only [Option.map_eq_some_iff, Prod.mk.injEq, Prod.exists] at h
        obtain ⟨children', seen', hlisted, rfl, -⟩ := h
        exact within_of_enlist hroot ha hlisting (fun _ hn => mem_sortedEntries hn)
          (Prod.ext rfl hlisted)

theorem within_of_mem_turns {w : WalkState} {stack : List Pending}
    (hroot : s.tree.resolve false s.root = some s.root) (hstack : ∀ a ∈ stack, s.PendingWithin a)
    {t : WalkState × Pending} (ht : t ∈ s.walker.turns w stack) : s.PendingWithin t.2 := by
  have hpush : ∀ w a stack children w', (∀ b ∈ a :: stack, s.PendingWithin b) →
      (s.walker.turn w a).next = some (children, w') → ∀ c ∈ children ++ stack,
        s.PendingWithin c := by
    intro w a stack children w' hin hnext c hc
    rcases List.mem_append.1 hc with hc | hc
    · exact within_of_turn hroot (hin a List.mem_cons_self) hnext c hc
    · exact hin c (List.mem_cons_of_mem a hc)
  obtain ⟨rest, hrest⟩ := StackWalk.exists_of_mem_turns
    (I := fun _ stack => ∀ a ∈ stack, s.PendingWithin a) hpush hstack ht
  exact hrest _ List.mem_cons_self

theorem within_of_mem_walk_turns (hdir : s.tree.isDir s.root)
    (hresolved : s.tree.resolve false s.root = some s.root) {t : WalkState × Pending}
    (ht : t ∈ s.walker.turns s.walkStart [.directory s.root 0]) : s.PendingWithin t.2 := by
  refine within_of_mem_turns hresolved (fun a ha => ?_) ht
  rw [List.mem_singleton.1 ha]
  exact within_root hdir hresolved

@[simp] theorem identities_nil : s.identities [] = [] := rfl

@[simp] theorem identities_file (e : Entry) (items : List Pending) :
    s.identities (.file e :: items) = s.identities items := rfl

theorem identities_directory {info : Stat} (h : s.tree.stat path = .ok info)
    (items : List Pending) :
    s.identities (.directory path depth :: items) = info.identity :: s.identities items := by
  have hidentity : s.tree.identity? path = some info.identity := by
    rw [FileSystem.identity?, h]
    rfl
  exact List.filterMap_cons_some hidentity

theorem identities_append (items items' : List Pending) :
    s.identities (items ++ items') = s.identities items ++ s.identities items' :=
  List.filterMap_append

theorem identities_cons (a : Pending) (items : List Pending) :
    s.identities (a :: items) = s.identities [a] ++ s.identities items :=
  identities_append [a] items

theorem identities_of_enlist
    (h : s.enlist directory depth seen names = (events, some (children, seen'))) :
    (s.identities children).Nodup ∧ (∀ i ∈ s.identities children, i ∉ seen) ∧
      seen ⊆ seen' ∧ s.identities children ⊆ seen' := by
  induction names generalizing seen events children with
  | nil =>
      simp only [enlist, Prod.mk.injEq, Option.some.injEq] at h
      obtain ⟨-, rfl, rfl⟩ := h
      simp
  | cons name names ih =>
      simp only [enlist] at h
      cases hlook : s.look (directory ++ [name]) with
      | raised => simp [hlook] at h
      | recorded r =>
          simp only [hlook, Prod.mk.injEq] at h
          exact ih (Prod.ext rfl h.2)
      | directory path identity =>
          simp only [hlook] at h
          split_ifs at h with hseen
          · exact ih h
          · simp only [Prod.mk.injEq, Option.map_eq_some_iff, Prod.exists] at h
            obtain ⟨-, rest, seen₁, hrest, rfl, rfl⟩ := h
            obtain ⟨info, hadmitted, -, rfl⟩ := look_eq_directory hlook
            obtain ⟨hnodup, hfresh, hkept, hadded⟩ := ih (Prod.ext rfl hrest)
            rw [identities_directory hadmitted.stat]
            refine ⟨List.nodup_cons.2 ⟨fun hi => hfresh _ hi List.mem_cons_self, hnodup⟩, ?_,
              fun i hi => hkept (List.mem_cons_of_mem _ hi), ?_⟩
            · intro i hi
              rcases List.mem_cons.1 hi with rfl | hi
              · exact hseen
              · exact fun hold => hfresh i hi (List.mem_cons_of_mem _ hold)
            · intro i hi
              rcases List.mem_cons.1 hi with rfl | hi
              · exact hkept List.mem_cons_self
              · exact hadded hi
      | file e =>
          simp only [hlook, Prod.mk.injEq, Option.map_eq_some_iff, Prod.exists] at h
          obtain ⟨-, rest, seen₁, hrest, rfl, rfl⟩ := h
          have hlater := ih (Prod.ext rfl hrest)
          exact hlater

theorem identities_of_turn {w w' : WalkState} {a : Pending}
    (h : (s.turn w a).next = some (children, w')) :
    (s.identities children).Nodup ∧ (∀ i ∈ s.identities children, i ∉ w.seen) ∧
      w.seen ⊆ w'.seen ∧ s.identities children ⊆ w'.seen := by
  cases a with
  | file e =>
      simp only [turn] at h
      split_ifs at h
      simp only [Option.some.injEq, Prod.mk.injEq] at h
      obtain ⟨rfl, rfl⟩ := h
      simp
  | directory path depth =>
      rcases turn_directory_cases (s := s) w path depth with ⟨r, hturn⟩ | ⟨listing, -, -, hturn⟩
      · rw [hturn] at h
        obtain ⟨rfl, rfl⟩ := Prod.mk.inj (Option.some.inj h)
        simp
      · rw [hturn] at h
        simp only [Option.map_eq_some_iff, Prod.mk.injEq, Prod.exists] at h
        obtain ⟨children', seen', hlisted, rfl, rfl⟩ := h
        exact identities_of_enlist (Prod.ext rfl hlisted)

/-- No directory takes its turn twice: those on the stack are known, and what is pushed
later was not known before. -/
theorem identities_of_turns {w : WalkState} {stack : List Pending}
    (hnodup : (s.identities stack).Nodup) (hseen : s.identities stack ⊆ w.seen) :
    (s.identities ((s.walker.turns w stack).map Prod.snd)).Nodup ∧
      ∀ i ∈ s.identities ((s.walker.turns w stack).map Prod.snd),
        i ∈ s.identities stack ∨ i ∉ w.seen := by
  induction w, stack using StackWalk.run.induct s.walker with
  | case1 w => simp
  | case2 w a stack hend =>
      rw [identities_cons] at hnodup
      rw [StackWalk.turns_of_end hend, identities_cons a stack]
      exact ⟨(List.nodup_append.1 hnodup).1, fun i hi => Or.inl (List.mem_append_left _ hi)⟩
  | case3 w a stack children w' hnext ih =>
      obtain ⟨hfreshNodup, hfresh, hkept, hadded⟩ := identities_of_turn hnext
      rw [identities_cons] at hnodup hseen
      obtain ⟨htop, hrest, hapart⟩ := List.nodup_append.1 hnodup
      obtain ⟨hitem, hbelow⟩ := List.append_subset.1 hseen
      have hpushed : (s.identities (children ++ stack)).Nodup := by
        rw [identities_append]
        exact hfreshNodup.append hrest fun i hi hi' => hfresh i hi (hbelow hi')
      have hknown : s.identities (children ++ stack) ⊆ w'.seen := by
        rw [identities_append]
        exact List.append_subset.2 ⟨hadded, fun i hi => hkept (hbelow hi)⟩
      obtain ⟨hlater, horigin⟩ := ih hpushed hknown
      rw [StackWalk.turns_of_push hnext, List.map_cons, identities_cons, identities_cons a stack]
      refine ⟨htop.append hlater ?_, ?_⟩
      · intro i hi hi'
        rcases horigin i hi' with hstack | hnew
        · rw [identities_append] at hstack
          rcases List.mem_append.1 hstack with hc | hb
          · exact hfresh i hc (hitem hi)
          · exact hapart i hi i hb rfl
        · exact hnew (hkept (hitem hi))
      · intro i hi
        rcases List.mem_append.1 hi with hi | hi
        · exact Or.inl (List.mem_append_left _ hi)
        · rcases horigin i hi with hstack | hnew
          · rw [identities_append] at hstack
            rcases List.mem_append.1 hstack with hc | hb
            · exact Or.inr (hfresh i hc)
            · exact Or.inl (List.mem_append_right _ hb)
          · exact Or.inr fun hold => hnew (hkept hold)

theorem exists_turn_of_mem_listed (h : path ∈ s.listed) : s.tree.isDir s.root ∧
    ∃ w depth, (w, .directory path depth) ∈ s.walker.turns s.walkStart [.directory s.root 0] := by
  unfold listed at h
  split_ifs at h with hdir
  · obtain ⟨⟨w, a⟩, ht, ha⟩ := List.mem_filterMap.1 h
    cases a with
    | file e => cases ha
    | directory path' depth =>
        simp only [Pending.listing?] at ha
        split_ifs at ha
        obtain rfl := Option.some.inj ha
        exact ⟨hdir, w, depth, ht⟩
  · cases h

theorem turn_of_entry_mem_walk {e : Entry} (h : .entry e ∈ s.walk) :
    ∃ w, (w, .file e) ∈ s.walker.turns s.walkStart [.directory s.root 0] := by
  rw [walk, StackWalk.run_fst_eq_turns, List.mem_flatMap] at h
  obtain ⟨⟨w, a⟩, ht, he⟩ := h
  cases a with
  | file e' =>
      simp only [walker, turn] at he
      split_ifs at he
      · simp at he
      · obtain rfl : e = e' := by simpa using he
        exact ⟨w, ht⟩
  | directory path depth => exact absurd he (entry_notMem_turn_directory w path depth e)

theorem exists_entry_of_mem_opened {resumeAfter : Option PyStr} (h : path ∈ s.opened resumeAfter) :
    s.tree.isDir s.root ∧ ∃ e, .entry e ∈ s.walk ∧ path = e.path := by
  unfold opened at h
  split_ifs at h with hdir
  · obtain ⟨ev, hev, hopens⟩ := List.mem_filterMap.1 h
    cases ev with
    | entry e =>
        simp only [opens] at hopens
        split_ifs at hopens
        exact ⟨hdir, e, hev, (Option.some.inj hopens).symm⟩
    | record r => cases hopens
    | raised => cases hopens
  · cases h

theorem identity_listing_sublist {ts : List (WalkState × Pending)}
    (h : ∀ t ∈ ts, s.PendingWithin t.2) :
    ((ts.filterMap fun t => t.2.listing?).map s.tree.identity?).Sublist
      ((s.identities (ts.map Prod.snd)).map some) := by
  induction ts with
  | nil => exact List.Sublist.slnil
  | cons t ts ih =>
      obtain ⟨w, a⟩ := t
      obtain ⟨ha, hrest⟩ := List.forall_mem_cons.1 h
      have hsub := ih hrest
      cases a with
      | file e => exact hsub
      | directory path depth =>
          obtain ⟨info, hinfo, -⟩ := ha.found
          have hidentity : s.tree.identity? path = some info.identity := by
            rw [FileSystem.identity?, hinfo]
            rfl
          rw [List.map_cons, identities_directory hinfo, List.map_cons]
          by_cases hdepth : depth ≤ maxDepth
          · rw [List.filterMap_cons_some (b := path) (by simp [Pending.listing?, hdepth]),
              List.map_cons, hidentity]
            exact hsub.cons_cons _
          · rw [List.filterMap_cons_none (by simp [Pending.listing?, hdepth])]
            exact hsub.cons _

theorem nodup_identity_listed (hdir : s.tree.isDir s.root)
    (hresolved : s.tree.resolve false s.root = some s.root) :
    (s.listed.map s.tree.identity?).Nodup := by
  obtain ⟨info, hinfo, -⟩ := (within_root hdir hresolved).found
  have hstart : s.identities [.directory s.root 0] = [info.identity] :=
    identities_directory hinfo []
  have hseen : s.identities [.directory s.root 0] ⊆ s.walkStart.seen := by
    simp [hstart, walkStart, hinfo]
  have hturns := (identities_of_turns (by simp [hstart]) hseen).1
  have hsub := identity_listing_sublist fun _ ht => within_of_mem_walk_turns hdir hresolved ht
  rw [listed, if_pos hdir]
  exact (hturns.map (Option.some_injective _)).sublist hsub

variable {readBytes : PosixPath → Except OsError (List UInt8)}

@[simp] theorem look_withReads (child : PosixPath) :
    (s.withReads readBytes).look child = s.look child := rfl

@[simp] theorem enlist_withReads (names : List Name) :
    (s.withReads readBytes).enlist directory depth seen names =
      s.enlist directory depth seen names := by
  induction names generalizing seen with
  | nil => rfl
  | cons name names ih => simp only [enlist, look_withReads, ih]

@[simp] theorem turn_withReads (w : WalkState) (a : Pending) :
    (s.withReads readBytes).turn w a = s.turn w a := by
  cases a with
  | file e => rfl
  | directory path depth =>
      simp only [turn, enlist_withReads]
      rfl

@[simp] theorem walk_withReads : (s.withReads readBytes).walk = s.walk := by
  have hwalker : (s.withReads readBytes).walker = s.walker := by
    simp only [walker, StackWalk.mk.injEq, and_true]
    funext w a
    exact turn_withReads w a
  rw [walk, walk, hwalker]
  rfl

theorem root_resolved_of_isDir {t : FileSystem} {config : ShareConfig} {rootName : PyStr}
    (h : t.walkRoot? config rootName = some s) (hdir : s.tree.isDir s.root) :
    s.tree.resolve false s.root = some s.root := by
  simp only [FileSystem.walkRoot?, Option.bind_eq_some_iff, Option.map_eq_some_iff] at h
  obtain ⟨mount, hmount, root, hroot, rfl⟩ := h
  obtain ⟨info, hinfo, -⟩ : ∃ info, t.stat root = .ok info ∧ info.kind = .directory := by
    unfold FileSystem.isDir at hdir
    split at hdir
    · exact ⟨_, ‹_›, of_decide_eq_true hdir⟩
    · cases hdir
  unfold FileSystem.shareRoot at hroot
  split_ifs at hroot
  · obtain rfl := Option.some.inj hroot
    exact t.resolve_found (Option.filter_eq_some_iff.1 hmount).1 hinfo
  · exact t.resolve_found (FileSystem.resolve_of_contained hroot) hinfo

end WalkRoot

namespace FileshareConnector

variable {c : FileshareConnector} {s : WalkRoot} {rootName : PyStr}
  {resumeFrom : Option ShareCheckpoint}

/-- The walk of a fetch ends; it opens regular files and lists directories inside the root
only, no directory twice; and nothing else of any file goes into what the fetch does. -/
structure StaysInside (c : FileshareConnector) (s : WalkRoot) (rootName : PyStr)
    (resumeFrom : Option ShareCheckpoint) : Prop where
  ends : ∃ n, s.walker.after s.walkStart [.directory s.root 0] n = none
  root : s.tree.isDir s.root → s.tree.resolve false s.root = some s.root
  opened : ∀ path ∈ s.opened (resumeKey resumeFrom), s.Within .regular path
  listed : ∀ path ∈ s.listed, s.Within .directory path
  once : (s.listed.map s.tree.identity?).Nodup
  reads : ∀ readBytes : PosixPath → Except OsError (List UInt8),
    (∀ path ∈ s.opened (resumeKey resumeFrom), readBytes path = s.tree.readBytes path) →
      c.fetchLog (s.withReads readBytes) rootName resumeFrom = c.fetchLog s rootName resumeFrom

theorem serve_withReads {readBytes : PosixPath → Except OsError (List UInt8)}
    {resumeAfter : Option PyStr} {ev : WalkEvent}
    (h : ∀ path ∈ s.opens resumeAfter ev, readBytes path = s.tree.readBytes path) :
    c.serve (s.withReads readBytes) resumeAfter ev = c.serve s resumeAfter ev := by
  cases ev with
  | record r => rfl
  | raised => rfl
  | entry e =>
      simp only [serve]
      split_ifs with hcovered
      · rfl
      · rw [List.append_left_inj]
        by_cases hsize : s.config.maxFileBytes < e.size
        · have hsize' : (s.withReads readBytes).config.maxFileBytes < e.size := hsize
          rw [read, read, if_pos hsize, if_pos hsize']
        · have hopens : s.opens resumeAfter (.entry e) = some e.path := by
            simp [WalkRoot.opens, hcovered, hsize]
          have hreads : (s.withReads readBytes).tree.readBytes e.path = s.tree.readBytes e.path :=
            h e.path hopens
          have hsize' : ¬ (s.withReads readBytes).config.maxFileBytes < e.size := hsize
          rw [read, read, if_neg hsize, if_neg hsize', hreads]

theorem serveFrom_withReads {readBytes : PosixPath → Except OsError (List UInt8)}
    {resumeAfter : Option PyStr} {events : List WalkEvent} (turn : ℕ)
    (h : ∀ path ∈ events.filterMap (s.opens resumeAfter), readBytes path = s.tree.readBytes path) :
    c.serveFrom (s.withReads readBytes) resumeAfter turn events =
      c.serveFrom s resumeAfter turn events := by
  induction events generalizing turn with
  | nil => rfl
  | cons ev events ih =>
      have hev : ∀ path ∈ s.opens resumeAfter ev, readBytes path = s.tree.readBytes path :=
        fun path hpath => h path (List.mem_filterMap.2 ⟨ev, List.mem_cons_self, hpath⟩)
      have hrest := ih (turn + 1) fun path hpath => by
        obtain ⟨ev', hmem, hopens⟩ := List.mem_filterMap.1 hpath
        exact h path (List.mem_filterMap.2 ⟨ev', List.mem_cons_of_mem ev hmem, hopens⟩)
      rw [serveFrom, serveFrom, serve_withReads hev, hrest]

theorem fetch_staysInside {t : FileSystem} {config : ShareConfig}
    (h : t.walkRoot? config rootName = some s) : c.StaysInside s rootName resumeFrom where
  ends := StackWalk.exists_after_eq_none _ _
  root := WalkRoot.root_resolved_of_isDir h
  opened := by
    intro path hpath
    obtain ⟨hdir, e, he, rfl⟩ := WalkRoot.exists_entry_of_mem_opened hpath
    obtain ⟨w, ht⟩ := WalkRoot.turn_of_entry_mem_walk he
    exact WalkRoot.within_of_mem_walk_turns hdir (WalkRoot.root_resolved_of_isDir h hdir) ht
  listed := by
    intro path hpath
    obtain ⟨hdir, w, depth, ht⟩ := WalkRoot.exists_turn_of_mem_listed hpath
    exact WalkRoot.within_of_mem_walk_turns hdir (WalkRoot.root_resolved_of_isDir h hdir) ht
  once := by
    by_cases hdir : s.tree.isDir s.root
    · exact WalkRoot.nodup_identity_listed hdir (WalkRoot.root_resolved_of_isDir h hdir)
    · rw [WalkRoot.listed, if_neg hdir]
      exact List.nodup_nil
  reads := by
    intro readBytes hreads
    have hsame : (s.withReads readBytes).tree.isDir (s.withReads readBytes).root =
        s.tree.isDir s.root := rfl
    rw [fetchLog, fetchLog, hsame, WalkRoot.walk_withReads]
    split_ifs with hdir
    · rw [WalkRoot.opened, if_pos hdir] at hreads
      exact serveFrom_withReads 0 hreads
    · rfl

end FileshareConnector

/-! `/srv` holds a note, itself once more as `again`, a link `up` to itself and a link `out` of
it. -/

def srv : Name := ⟨pyStr "srv", by decide⟩

def again : Name := ⟨pyStr "again", by decide⟩

def note : Name := ⟨pyStr "note.txt", by decide⟩

def upLink : Name := ⟨pyStr "up", by decide⟩

def outLink : Name := ⟨pyStr "out", by decide⟩

def isSrv : PosixPath → Bool
  | [] => false
  | n :: path => n = srv && path.all (· = again)

/-- Where a link of the directory leads. -/
def linkTarget (d : PosixPath) (n : Name) : Option PosixPath :=
  if isSrv d then
    if n = upLink then some [srv] else if n = outLink then some [outLink] else none
  else none

/-- One component more of a path that is resolved. -/
def resolveStep (d : PosixPath) (n : Name) : PosixPath := (linkTarget d n).getD (d ++ [n])

theorem resolve_resolveStep (path : PosixPath) :
    (path.foldl resolveStep []).foldl resolveStep [] = path.foldl resolveStep [] := by
  induction path using List.reverseRecOn with
  | nil => rfl
  | append_singleton path n ih =>
      have hstep : (path ++ [n]).foldl resolveStep [] = resolveStep (path.foldl resolveStep []) n :=
        List.foldl_concat ..
      rw [hstep]
      generalize path.foldl resolveStep [] = d at ih ⊢
      cases hlink : linkTarget d n with
      | none => simp [resolveStep, hlink, ih]
      | some target =>
          have htarget : target = [srv] ∨ target = [outLink] := by
            unfold linkTarget at hlink
            split_ifs at hlink
            · exact Or.inl (Option.some.inj hlink).symm
            · exact Or.inr (Option.some.inj hlink).symm
          simp only [resolveStep, hlink, Option.getD_some]
          rcases htarget with rfl | rfl <;> rfl

def mountedAgain : FileSystem where
  scandir p := if isSrv p then .ok [again, note, outLink, upLink] else .error .other
  isSymlink p := .ok (p.getLast?.any fun n => (linkTarget p.dropLast n).isSome)
  resolve _ p := some (p.foldl resolveStep [])
  stat p :=
    if isSrv p then .ok { kind := .directory, identity := (0, 1), size := 0 }
    else if isSrv p.dropLast && p.getLast? = some note then
      .ok { kind := .regular, identity := (0, 2), size := 1 }
    else .error .other
  readBytes _ := .ok [0x68]
  scandir_nodup := by
    intro d names h
    split_ifs at h
    exact Except.ok.inj h ▸ by decide
  resolve_found := by
    intro strict p r i h _
    rw [← Option.some.inj h, resolve_resolveStep]
  resolve_child := by
    intro d names n h _ _ hlink
    have hd := Option.some.inj h
    have hnone : linkTarget d n = none := by simpa using Except.ok.inj hlink
    rw [List.foldl_concat, hd, resolveStep, hnone, Option.getD_none]

def mountedAgainRoot : WalkRoot where
  tree := mountedAgain
  config := { mountPath := [srv], followSymlinks := true, maxFileBytes := 1 }
  mount := [srv]
  root := [srv]

theorem FileshareConnector.staysInside_mountedAgain :
    asciiConnector.StaysInside mountedAgainRoot [] none ∧
      mountedAgainRoot.opened none = [[srv, note]] := by
  have hroot : mountedAgain.walkRoot? mountedAgainRoot.config [] = some mountedAgainRoot := rfl
  refine ⟨FileshareConnector.fetch_staysInside hroot, ?_⟩
  rw [WalkRoot.opened, mountedAgainRoot.walk_eq_order]
  decide +kernel

end IcebergSST
