import IcebergSST.ShareWalk

/-!
# The order of a walk that follows no links

Where links are not followed, every path the walk takes is the place the file is at. A
directory's subtree then lies below the directory's own path, and the paths below two
entries of one directory compare as the entries' names do, so the files come in the order
of their positions.
-/

namespace IcebergSST

open Fileshare WalkRoot

namespace Fileshare

def Pending.path : Pending → PosixPath
  | .file e => e.path
  | .directory path _ => path

/-- All paths below the one come before all paths below the other. -/
def Apart (p q : PosixPath) : Prop := ∀ p' q', p <+: p' → q <+: q' → p' < q'

/-- The files of these events come in the order of their paths. -/
def InOrder (events : List WalkEvent) : Prop :=
  events.Pairwise fun a b => ∀ e e', a = .entry e → b = .entry e' → e.path < e'.path

theorem apart_of_lt (directory : PosixPath) {m n : Name} (h : m < n) :
    Apart (directory ++ [m]) (directory ++ [n]) := by
  rintro _ _ ⟨p, rfl⟩ ⟨q, rfl⟩
  simp only [List.append_assoc, List.singleton_append]
  exact List.append_left_lt (List.cons_lt_cons_iff.2 (Or.inl h))

theorem inOrder_of_no_entry {events : List WalkEvent} (h : ∀ e, .entry e ∉ events) :
    InOrder events := by
  refine List.pairwise_of_forall_mem_list ?_
  rintro a ha b - e e' rfl -
  exact absurd ha (h e)

theorem inOrder_append {events events' : List WalkEvent} :
    InOrder (events ++ events') ↔ InOrder events ∧ InOrder events' ∧
      ∀ e e', .entry e ∈ events → .entry e' ∈ events' → e.path < e'.path := by
  unfold InOrder
  rw [List.pairwise_append]
  refine and_congr_right fun _ => and_congr_right fun _ => ?_
  constructor
  · exact fun h e e' he he' => h _ he _ he' e e' rfl rfl
  · rintro h _ ha _ hb e e' rfl rfl
    exact h e e' ha hb

end Fileshare

namespace Share

variable {s : Share}

/-- The path of an item is where it is, and the key of a file tells the path. -/
def Placed (s : Share) : Pending → Prop
  | .file e => ∃ rest, rest ≠ [] ∧ e.path = s.mount ++ rest ∧ e.key = asPosix rest
  | .directory path _ => s.tree.resolve false path = some path ∧ s.root <+: path

/-- The part of a walk below a path: its files are there, in the order of their paths. -/
structure Traversed (s : Share) (path : PosixPath) (events : List WalkEvent) : Prop where
  below : ∀ e, .entry e ∈ events → path <+: e.path
  placed : ∀ e, .entry e ∈ events → s.Placed (.file e)
  ordered : InOrder events

theorem resolved_of_links_off (hlinks : s.config.followSymlinks = false)
    {directory resolved : PosixPath} {names : List Name} {name : Name} {info : Stat}
    (hdirectory : s.Placed (.directory directory 0))
    (hnames : s.tree.scandir directory = .ok names) (hname : name ∈ names)
    (h : s.Admitted (directory ++ [name]) resolved info) :
    resolved = directory ++ [name] ∧ s.tree.resolve false resolved = some resolved ∧
      s.root <+: resolved := by
  obtain ⟨link, hlink, hfollowed⟩ := h.link
  obtain rfl : link = false := by simpa [hlinks] using hfollowed
  have hchild := s.tree.resolve_child hdirectory.1 hnames hname hlink
  have hresolved := FileSystem.resolve_of_contained h.contained
  obtain rfl : resolved = directory ++ [name] := by
    rw [hchild] at hresolved
    exact (Option.some.inj hresolved).symm
  exact ⟨rfl, hchild, FileSystem.prefix_of_contained h.contained s.root_resolved⟩

/-- What a listing pushes is where it was listed, in the order of the names. -/
theorem enlist_of_links_off (hlinks : s.config.followSymlinks = false) {directory : PosixPath}
    {depth : ℕ} {listing names : List Name} {seen seen' : List FileIdentity}
    {events : List WalkEvent} {children : List Pending}
    (hdirectory : s.Placed (.directory directory 0))
    (hlisting : s.tree.scandir directory = .ok listing) (hnames : ∀ n ∈ names, n ∈ listing)
    (h : s.enlist directory depth seen names = (events, some (children, seen'))) :
    (∀ c ∈ children, s.Placed c) ∧
      (children.map Pending.path).Sublist (names.map fun n => directory ++ [n]) := by
  induction names generalizing seen events children with
  | nil =>
      simp only [enlist, Prod.mk.injEq, Option.some.injEq] at h
      simp [← h.2.1]
  | cons name names ih =>
      have hrest : ∀ n ∈ names, n ∈ listing := fun n hn => hnames n (List.mem_cons_of_mem _ hn)
      have hname := hnames name List.mem_cons_self
      simp only [enlist] at h
      cases hlook : s.look (directory ++ [name]) with
      | raised => simp [hlook] at h
      | recorded r =>
          simp only [hlook, Prod.mk.injEq] at h
          obtain ⟨hplaced, hsub⟩ := ih hrest (Prod.ext rfl h.2)
          exact ⟨hplaced, hsub.cons _⟩
      | directory path identity =>
          obtain ⟨info, hadmitted, -, -⟩ := look_eq_directory hlook
          obtain ⟨rfl, hresolved, hroot⟩ :=
            resolved_of_links_off hlinks hdirectory hlisting hname hadmitted
          simp only [hlook] at h
          split_ifs at h
          · obtain ⟨hplaced, hsub⟩ := ih hrest h
            exact ⟨hplaced, hsub.cons _⟩
          · simp only [Prod.mk.injEq, Option.map_eq_some_iff, Prod.exists] at h
            obtain ⟨-, rest, seen₁, htail, rfl, rfl⟩ := h
            obtain ⟨hplaced, hsub⟩ := ih hrest (Prod.ext rfl htail)
            refine ⟨?_, hsub.cons_cons _⟩
            simpa using ⟨⟨hresolved, hroot⟩, hplaced⟩
      | file e =>
          obtain ⟨info, hadmitted, -, hkey, -⟩ := look_eq_file hlook
          obtain ⟨hpath, hresolved, hroot⟩ :=
            resolved_of_links_off hlinks hdirectory hlisting hname hadmitted
          simp only [hlook, Prod.mk.injEq, Option.map_eq_some_iff, Prod.exists] at h
          obtain ⟨-, rest, seen₁, htail, rfl, rfl⟩ := h
          obtain ⟨hplaced, hsub⟩ := ih hrest (Prod.ext rfl htail)
          refine ⟨?_, ?_⟩
          · refine List.forall_mem_cons.2 ⟨?_, hplaced⟩
            obtain ⟨above, habove⟩ := s.inside.trans hdirectory.2
            have hplace : e.path = s.mount ++ (above ++ [name]) := by
              rw [hpath, ← habove, List.append_assoc]
            refine ⟨above ++ [name], by simp, hplace, ?_⟩
            have hchild := FileSystem.resolve_of_contained hadmitted.contained
            rw [hkey, key, FileSystem.key_of_resolve s.mount_resolved hchild ⟨_, hplace.symm⟩,
              hplace, List.drop_left]
          · simp only [List.map_cons, Pending.path, hpath]
            exact hsub.cons_cons _

theorem pairwise_sortedEntries {listing : List Name} (h : listing.Nodup) :
    (sortedEntries listing).Pairwise (· < ·) := by
  have hnodup : (sortedEntries listing).Nodup :=
    (List.perm_insertionSort _ _).nodup_iff.2 (h.sublist (List.take_sublist _ _))
  have hsorted := List.pairwise_insertionSort (· ≤ ·) (listing.take maxEntriesPerDirectory)
  exact (hsorted.and hnodup).imp fun h => lt_of_le_of_ne h.1 h.2

theorem traversed_of_no_entry {path : PosixPath} {events : List WalkEvent}
    (h : ∀ e, .entry e ∉ events) : s.Traversed path events where
  below := fun e he => absurd he (h e)
  placed := fun e he => absurd he (h e)
  ordered := inOrder_of_no_entry h

theorem children_of_links_off (hlinks : s.config.followSymlinks = false) {w w' : WalkState}
    {path : PosixPath} {depth : ℕ} {children : List Pending}
    (hpath : s.Placed (.directory path depth))
    (h : (s.turn w (.directory path depth)).next = some (children, w')) :
    (∀ c ∈ children, s.Placed c ∧ path <+: c.path) ∧
      children.Pairwise fun a b => Apart a.path b.path := by
  rcases turn_directory_cases (s := s) w path depth with ⟨r, hturn⟩ | ⟨listing, -, hlisting, hturn⟩
  · rw [hturn] at h
    obtain ⟨rfl, -⟩ := Prod.mk.inj (Option.some.inj h)
    simp
  · rw [hturn] at h
    simp only [Option.map_eq_some_iff, Prod.mk.injEq, Prod.exists] at h
    obtain ⟨children', seen', hlisted, rfl, -⟩ := h
    obtain ⟨hplaced, hsub⟩ := enlist_of_links_off hlinks hpath hlisting
      (fun n hn => mem_sortedEntries hn) (Prod.ext rfl hlisted)
    constructor
    · intro c hc
      obtain ⟨n, -, hn⟩ := List.mem_map.1 (hsub.subset (List.mem_map_of_mem hc))
      exact ⟨hplaced c hc, hn ▸ List.prefix_append _ _⟩
    · have hsorted := pairwise_sortedEntries (s.tree.scandir_nodup hlisting)
      have hapart : ((sortedEntries listing).map fun n => path ++ [n]).Pairwise Apart :=
        List.pairwise_map.2 (hsorted.imp fun h => apart_of_lt path h)
      exact List.pairwise_map.1 (hapart.sublist hsub)

theorem traversed_follow {part : WalkState → Pending → List WalkEvent × Option WalkState}
    {path : PosixPath} {items : List Pending} (w : WalkState)
    (hpart : ∀ w, ∀ a ∈ items, s.Traversed a.path (part w a).1)
    (hbelow : ∀ a ∈ items, path <+: a.path)
    (hapart : items.Pairwise fun a b => Apart a.path b.path) :
    (∀ e, .entry e ∈ (StackWalk.follow part w items).1 → ∃ a ∈ items, a.path <+: e.path) ∧
      s.Traversed path (StackWalk.follow part w items).1 := by
  induction items generalizing w with
  | nil => exact ⟨by simp [StackWalk.follow], traversed_of_no_entry (by simp [StackWalk.follow])⟩
  | cons a items ih =>
      have hone := hpart w a List.mem_cons_self
      have ha := hbelow a List.mem_cons_self
      obtain ⟨hfirst, hlater⟩ := List.pairwise_cons.1 hapart
      simp only [StackWalk.follow]
      rcases hw : part w a with ⟨emitted, _ | w'⟩
      · rw [hw] at hone
        exact ⟨fun e he => ⟨a, List.mem_cons_self, hone.below e he⟩,
          fun e he => ha.trans (hone.below e he), hone.placed, hone.ordered⟩
      · rw [hw] at hone
        obtain ⟨hmem, hrest⟩ := ih w' (fun w b hb => hpart w b (List.mem_cons_of_mem a hb))
          (fun b hb => hbelow b (List.mem_cons_of_mem a hb)) hlater
        refine ⟨?_, ?_, ?_, ?_⟩
        · intro e he
          rcases List.mem_append.1 he with he | he
          · exact ⟨a, List.mem_cons_self, hone.below e he⟩
          · obtain ⟨b, hb, hpath⟩ := hmem e he
            exact ⟨b, List.mem_cons_of_mem a hb, hpath⟩
        · intro e he
          rcases List.mem_append.1 he with he | he
          · exact ha.trans (hone.below e he)
          · exact hrest.below e he
        · intro e he
          exact (List.mem_append.1 he).elim (hone.placed e) (hrest.placed e)
        · refine inOrder_append.2 ⟨hone.ordered, hrest.ordered, ?_⟩
          intro e e' he he'
          obtain ⟨b, hb, hpath⟩ := hmem e' he'
          exact hfirst b hb _ _ (hone.below e he) hpath

theorem traversed_visit (hlinks : s.config.followSymlinks = false) (levels : ℕ) (w : WalkState)
    {a : Pending} (ha : s.Placed a) : s.Traversed a.path (s.walker.visit levels w a).1 := by
  induction levels generalizing w a with
  | zero => exact traversed_of_no_entry (by simp [StackWalk.visit])
  | succ levels ih =>
      cases a with
      | file e =>
          simp only [StackWalk.visit, walker, turn]
          split_ifs with hfiles
          · exact traversed_of_no_entry (by simp)
          · simp only [StackWalk.follow, List.append_nil]
            refine ⟨?_, ?_, ?_⟩
            · rintro _ (_ | ⟨_, ⟨⟩⟩)
              exact List.prefix_rfl
            · rintro _ (_ | ⟨_, ⟨⟩⟩)
              exact ha
            · exact List.pairwise_singleton ..
      | directory path depth =>
          have hemitted := entry_notMem_turn_directory (s := s) w path depth
          cases hnext : (s.turn w (.directory path depth)).next with
          | none =>
              simp only [StackWalk.visit, walker, hnext]
              exact traversed_of_no_entry hemitted
          | some next =>
              obtain ⟨children, w'⟩ := next
              obtain ⟨hchildren, hapart⟩ := children_of_links_off hlinks ha hnext
              obtain ⟨-, hrest⟩ := traversed_follow w'
                (fun w c hc => ih w (hchildren c hc).1) (fun c hc => (hchildren c hc).2) hapart
              simp only [StackWalk.visit, walker, hnext]
              refine ⟨?_, ?_, inOrder_append.2 ⟨inOrder_of_no_entry hemitted, hrest.ordered, ?_⟩⟩
              · intro e he
                exact hrest.below e ((List.mem_append.1 he).resolve_left (hemitted e))
              · intro e he
                exact hrest.placed e ((List.mem_append.1 he).resolve_left (hemitted e))
              · intro e e' he
                exact absurd he (hemitted e)

/-- Without links to follow, the files of a walk come in the order of their positions. -/
theorem positions_increase (hlinks : s.config.followSymlinks = false) {i j : ℕ} {e e' : Entry}
    (hij : i < j) (he : s.order[i]? = some (.entry e)) (he' : s.order[j]? = some (.entry e')) :
    Fileshare.position e.key < Fileshare.position e'.key := by
  have hroot : s.Placed (.directory s.root 0) := ⟨s.root_resolved, List.prefix_rfl⟩
  have htraversed := traversed_visit hlinks (maxDepth + 3) s.walkStart hroot
  have hpath : e.path < e'.path := by
    obtain ⟨hi, hei⟩ := List.getElem?_eq_some_iff.1 he
    obtain ⟨hj, hej⟩ := List.getElem?_eq_some_iff.1 he'
    exact List.pairwise_iff_getElem.1 htraversed.ordered i j hi hj hij e e' hei hej
  obtain ⟨rest, hne, hplace, hkey⟩ := htraversed.placed e (List.mem_of_getElem? he)
  obtain ⟨rest', hne', hplace', hkey'⟩ := htraversed.placed e' (List.mem_of_getElem? he')
  rw [hplace, hplace'] at hpath
  have hrest : rest < rest' := by
    rcases lt_trichotomy rest rest' with hlt | rfl | hgt
    · exact hlt
    · exact absurd hpath (lt_irrefl _)
    · exact absurd (hpath.trans (List.append_left_lt hgt)) (lt_irrefl _)
  rw [hkey, hkey', position_asPosix hne, position_asPosix hne']
  exact List.map_lt (fun _ _ h => h) hrest

end Share

end IcebergSST
