import IcebergSST.ShareFetch

/-!
# What a complete fetch of a share has read

A fetch whose coverage has no skip, no failure and no scope gap came to every file that
can be reached under the policy: what it has seen is closed under the listings, because
every directory it saw was listed and every entry of a listing was followed. It read each
of these files, but only as much text of it as the output limit leaves.
-/

namespace IcebergSST

open Fileshare WalkRoot

namespace Share

variable (s : Share)

/-- The directories a walk can reach under the policy on links, inside the root. -/
inductive Reach : PosixPath → Prop
  | root : Reach s.root
  | child {directory resolved : PosixPath} {names : List Name} {name : Name} {info : Stat} :
      Reach directory → s.tree.scandir directory = .ok names → name ∈ names →
      s.Admitted (directory ++ [name]) resolved info → info.kind = .directory → Reach resolved

/-- A regular file under the root, and the key it is known by. -/
def ReachableFile (key : PyStr) (path : PosixPath) : Prop :=
  ∃ directory names name info, s.Reach directory ∧ s.tree.scandir directory = .ok names ∧
    name ∈ names ∧ s.Admitted (directory ++ [name]) path info ∧ info.kind = .regular ∧
    key = s.key (directory ++ [name])

variable {s}

/-- Every entry of a listing was followed. -/
structure Enlisted (s : Share) (directory : PosixPath) (depth : ℕ) (seen : List FileIdentity)
    (names : List Name) (children : List Pending) (seen' : List FileIdentity) : Prop where
  grows : seen ⊆ seen'
  followed : ∀ n ∈ names,
    (∃ path identity, s.look (directory ++ [n]) = .directory path identity ∧ identity ∈ seen') ∨
      ∃ e, s.look (directory ++ [n]) = .file e ∧ .file e ∈ children
  fresh : ∀ identity ∈ seen', identity ∈ seen ∨ ∃ n ∈ names, ∃ path,
    s.look (directory ++ [n]) = .directory path identity ∧ .directory path (depth + 1) ∈ children

theorem enlisted_of_silent {directory : PosixPath} {depth : ℕ} {seen seen' : List FileIdentity}
    {names : List Name} {children : List Pending}
    (h : s.enlist directory depth seen names = ([], some (children, seen'))) :
    s.Enlisted directory depth seen names children seen' := by
  induction names generalizing seen children with
  | nil =>
      simp only [enlist, Prod.mk.injEq, Option.some.injEq, true_and] at h
      obtain ⟨rfl, rfl⟩ := h
      exact ⟨List.Subset.refl _, by simp, fun identity hid => Or.inl hid⟩
  | cons name names ih =>
      simp only [enlist] at h
      cases hlook : s.look (directory ++ [name]) with
      | raised => simp [hlook] at h
      | recorded r => simp [hlook] at h
      | directory path identity =>
          simp only [hlook] at h
          split_ifs at h with hseen
          · have hrest := ih h
            refine ⟨hrest.grows, ?_, ?_⟩
            · intro n hn
              rcases List.mem_cons.1 hn with rfl | hn
              · exact Or.inl ⟨path, identity, hlook, hrest.grows hseen⟩
              · exact hrest.followed n hn
            · intro i hi
              refine (hrest.fresh i hi).imp_right ?_
              rintro ⟨n, hn, h⟩
              exact ⟨n, List.mem_cons_of_mem _ hn, h⟩
          · simp only [Prod.mk.injEq, Option.map_eq_some_iff, Prod.exists] at h
            obtain ⟨hevents, rest, seen₁, htail, rfl, rfl⟩ := h
            have hrest := ih (Prod.ext hevents htail)
            refine ⟨?_, ?_, ?_⟩
            · exact fun i hi => hrest.grows (List.mem_cons_of_mem _ hi)
            · intro n hn
              rcases List.mem_cons.1 hn with rfl | hn
              · exact Or.inl ⟨path, identity, hlook, hrest.grows List.mem_cons_self⟩
              · refine (hrest.followed n hn).imp_right ?_
                rintro ⟨e, he, hmem⟩
                exact ⟨e, he, List.mem_cons_of_mem _ hmem⟩
            · intro i hi
              rcases hrest.fresh i hi with hold | ⟨n, hn, path', hlook', hmem⟩
              · rcases List.mem_cons.1 hold with rfl | hold
                · exact Or.inr ⟨name, List.mem_cons_self, path, hlook, List.mem_cons_self⟩
                · exact Or.inl hold
              · exact Or.inr ⟨n, List.mem_cons_of_mem _ hn, path', hlook',
                  List.mem_cons_of_mem _ hmem⟩
      | file e =>
          simp only [hlook, Prod.mk.injEq, Option.map_eq_some_iff, Prod.exists] at h
          obtain ⟨hevents, rest, seen₁, htail, rfl, rfl⟩ := h
          have hrest := ih (Prod.ext hevents htail)
          refine ⟨hrest.grows, ?_, ?_⟩
          · intro n hn
            rcases List.mem_cons.1 hn with rfl | hn
            · exact Or.inr ⟨e, hlook, List.mem_cons_self⟩
            · refine (hrest.followed n hn).imp_right ?_
              rintro ⟨e', he', hmem⟩
              exact ⟨e', he', List.mem_cons_of_mem _ hmem⟩
          · intro i hi
            refine (hrest.fresh i hi).imp_right ?_
            rintro ⟨n, hn, path, hpath, hmem⟩
            exact ⟨n, List.mem_cons_of_mem _ hn, path, hpath, List.mem_cons_of_mem _ hmem⟩

theorem raised_of_enlist_none {directory : PosixPath} {depth : ℕ} {seen : List FileIdentity}
    {names : List Name} (h : (s.enlist directory depth seen names).2 = none) :
    .raised ∈ (s.enlist directory depth seen names).1 := by
  induction names generalizing seen with
  | nil => cases h
  | cons name names ih =>
      simp only [enlist] at h ⊢
      cases hlook : s.look (directory ++ [name]) with
      | raised => simp
      | recorded r =>
          simp only [hlook] at h
          exact List.mem_cons_of_mem _ (ih h)
      | directory path identity =>
          simp only [hlook] at h
          split_ifs at h with hseen
          · simpa [hseen] using ih h
          · simpa [hseen] using ih (Option.map_eq_none_iff.1 h)
      | file e =>
          simp only [hlook] at h
          exact ih (Option.map_eq_none_iff.1 h)

/-- Nothing was recorded: every event is a file to read. -/
def Silent (events : List WalkEvent) : Prop := ∀ ev ∈ events, ∃ e, ev = .entry e

theorem Silent.eq_nil {events : List WalkEvent} (h : Silent events)
    (hentry : ∀ e, .entry e ∉ events) : events = [] := by
  apply List.eq_nil_iff_forall_not_mem.2
  intro ev hev
  obtain ⟨e, rfl⟩ := h ev hev
  exact hentry e hev

/-- A turn at which a directory leaves no record lists all of it. -/
theorem listed_of_silent {w : WalkState} {path : PosixPath} {depth : ℕ}
    (h : Silent (s.turn w (.directory path depth)).emitted) :
    (s.turn w (.directory path depth)).emitted = [] ∧
      ∃ names children seen', s.tree.scandir path = .ok names ∧
        (s.turn w (.directory path depth)).next = some (children, { w with seen := seen' }) ∧
        s.Enlisted path depth w.seen names children seen' := by
  have hnil := h.eq_nil (entry_notMem_turn_directory w path depth)
  refine ⟨hnil, ?_⟩
  rcases turn_directory_cases (s := s) w path depth with ⟨r, hturn⟩ | ⟨names, -, hnames, hturn⟩
  · simp [hturn] at hnil
  · rw [hturn] at hnil ⊢
    obtain ⟨hgap, hevents⟩ := List.append_eq_nil_iff.1 hnil
    have hsmall : names.length ≤ maxEntriesPerDirectory := by
      by_contra hlarge
      simp [oversized, not_le.1 hlarge] at hgap
    have hall : ∀ n, n ∈ sortedEntries names ↔ n ∈ names := by
      intro n
      rw [sortedEntries, List.take_of_length_le hsmall, List.mem_insertionSort]
    rcases hnext : (s.enlist path depth w.seen (sortedEntries names)).2 with _ | ⟨children, seen'⟩
    · have hraised := raised_of_enlist_none hnext
      simp [hevents] at hraised
    · have hlisted := enlisted_of_silent (Prod.ext hevents hnext)
      refine ⟨names, children, seen', hnames, rfl, hlisted.grows, ?_, ?_⟩
      · exact fun n hn => hlisted.followed n ((hall n).2 hn)
      · intro identity hid
        refine (hlisted.fresh identity hid).imp_right ?_
        rintro ⟨n, hn, hchild⟩
        exact ⟨n, (hall n).1 hn, hchild⟩

/-- A directory whose every entry is a directory seen, a file on the stack or a file
handed out. -/
def Listed (s : Share) (w : WalkState) (stack : List Pending) (events : List WalkEvent)
    (directory : PosixPath) : Prop :=
  ∃ names, s.tree.scandir directory = .ok names ∧ ∀ n ∈ names,
    (∃ path identity, s.look (directory ++ [n]) = .directory path identity ∧ identity ∈ w.seen) ∨
      ∃ e, s.look (directory ++ [n]) = .file e ∧ (.file e ∈ stack ∨ .entry e ∈ events)

/-- A directory seen is still on the stack or was listed. -/
structure Frontier (s : Share) (w : WalkState) (stack : List Pending) (events : List WalkEvent) :
    Prop where
  rooted : ∀ info, s.tree.stat s.root = .ok info → info.identity ∈ w.seen
  listed : ∀ path info, s.tree.resolve false path = some path → s.tree.stat path = .ok info →
    info.kind = .directory → info.identity ∈ w.seen →
    (∃ depth, .directory path depth ∈ stack) ∨ s.Listed w stack events path

theorem frontier_start (hdir : s.tree.isDir s.root) :
    s.Frontier s.walkStart [.directory s.root 0] [] where
  rooted := by
    intro info hinfo
    simp [walkStart, hinfo]
  listed := by
    intro path info hresolved hinfo hkind hseen
    simp only [walkStart] at hseen
    split at hseen
    · rename_i rootInfo hroot
      have hrootKind : rootInfo.kind = .directory := by simpa [FileSystem.isDir, hroot] using hdir
      obtain rfl : path = s.root := s.isTree.one_place hresolved s.root_resolved hinfo hroot hkind
        hrootKind (List.mem_singleton.1 hseen)
      exact Or.inl ⟨0, List.mem_singleton_self _⟩
    · simp at hseen

theorem Frontier.file {w : WalkState} {e : Entry} {stack : List Pending} {events : List WalkEvent}
    (h : s.Frontier w (.file e :: stack) events) (n : ℕ) :
    s.Frontier { w with files := n } stack (events ++ [.entry e]) where
  rooted := h.rooted
  listed := by
    intro path info hresolved hinfo hkind hseen
    rcases h.listed path info hresolved hinfo hkind hseen with ⟨depth, hdepth⟩ |
      ⟨names, hnames, hall⟩
    · exact Or.inl ⟨depth, by simpa using hdepth⟩
    · refine Or.inr ⟨names, hnames, fun n hn => (hall n hn).imp_right ?_⟩
      rintro ⟨e', hlook, hfile | hevent⟩
      · rcases List.mem_cons.1 hfile with heq | hfile
        · obtain rfl := Pending.file.inj heq
          exact ⟨e', hlook, Or.inr (by simp)⟩
        · exact ⟨e', hlook, Or.inl hfile⟩
      · exact ⟨e', hlook, Or.inr (by simp [hevent])⟩

theorem Frontier.directory {w : WalkState} {directory : PosixPath} {depth : ℕ}
    {stack children : List Pending} {events : List WalkEvent} {names : List Name}
    {seen' : List FileIdentity} (h : s.Frontier w (.directory directory depth :: stack) events)
    (hnames : s.tree.scandir directory = .ok names)
    (henlisted : s.Enlisted directory depth w.seen names children seen') :
    s.Frontier { w with seen := seen' } (children ++ stack) events where
  rooted := fun info hinfo => henlisted.grows (h.rooted info hinfo)
  listed := by
    intro path info hresolved hinfo hkind hseen
    rcases henlisted.fresh _ hseen with hold | ⟨n, hn, path', hlook, hchild⟩
    · rcases h.listed path info hresolved hinfo hkind hold with ⟨k, hk⟩ | ⟨names', hnames', hall⟩
      · rcases List.mem_cons.1 hk with heq | hk
        · obtain ⟨rfl, rfl⟩ := Pending.directory.inj heq
          refine Or.inr ⟨names, hnames, fun n hn => (henlisted.followed n hn).imp_right ?_⟩
          rintro ⟨e, he, hmem⟩
          exact ⟨e, he, Or.inl (List.mem_append_left _ hmem)⟩
        · exact Or.inl ⟨k, List.mem_append_right _ hk⟩
      · refine Or.inr ⟨names', hnames', fun n hn => ?_⟩
        rcases hall n hn with ⟨p, identity, hl, hid⟩ | ⟨e, he, hfile | hevent⟩
        · exact Or.inl ⟨p, identity, hl, henlisted.grows hid⟩
        · exact Or.inr ⟨e, he, Or.inl (List.mem_append_right _ (by simpa using hfile))⟩
        · exact Or.inr ⟨e, he, Or.inr hevent⟩
    · obtain ⟨info', hadmitted, hkind', hid⟩ := look_eq_directory hlook
      have hresolved' :=
        s.isTree.resolve_resolved (FileSystem.resolve_of_contained hadmitted.contained)
      obtain rfl : path = path' := s.isTree.one_place hresolved hresolved' hinfo hadmitted.stat
        hkind hkind' hid.symm
      exact Or.inl ⟨depth + 1, List.mem_append_left _ hchild⟩

theorem silent_append {events events' : List WalkEvent} :
    Silent (events ++ events') ↔ Silent events ∧ Silent events' := by
  simp only [Silent, List.mem_append, or_imp, forall_and]

theorem turn_file_of_silent {w : WalkState} {e : Entry} (h : Silent (s.turn w (.file e)).emitted) :
    s.turn w (.file e) = ⟨[.entry e], some ([], { w with files := w.files + 1 })⟩ := by
  simp only [turn] at h ⊢
  split_ifs at h ⊢
  · obtain ⟨e', he'⟩ := h _ List.mem_cons_self
    cases he'
  · rfl

/-- A walk that recorded nothing ends with everything it saw listed. -/
theorem frontier_of_silent (hdir : s.tree.isDir s.root) (h : Silent s.walk) :
    ∃ w, s.Frontier w [] s.walk := by
  have hrun := StackWalk.run_invariant (w := s.walker)
    (I := fun w stack events => Silent events → s.Frontier w stack events)
    (E := fun events => ¬ Silent events) ?_ ?_ fun _ => frontier_start hdir
  · rcases hrun with ⟨w, -, hfrontier⟩ | ⟨-, hend⟩
    · exact ⟨w, hfrontier h⟩
    · exact absurd h hend
  · intro w a stack events hkept hnext hsilent
    have hturn := (silent_append.1 hsilent).2
    cases a with
    | file e => simp [walker, turn_file_of_silent hturn] at hnext
    | directory path depth =>
        obtain ⟨-, names, children, seen', -, hsome, -⟩ := listed_of_silent hturn
        rw [show (s.walker.turn w (.directory path depth)).next = _ from hsome] at hnext
        cases hnext
  · intro w a stack events items w' hkept hnext hsilent
    obtain ⟨hevents, hturn⟩ := silent_append.1 hsilent
    cases a with
    | file e =>
        have hfile := turn_file_of_silent hturn
        simp only [walker, hfile, Option.some.injEq, Prod.mk.injEq] at hnext ⊢
        obtain ⟨rfl, rfl⟩ := hnext
        exact (hkept hevents).file _
    | directory path depth =>
        obtain ⟨hnil, names, children, seen', hnames, hsome, henlisted⟩ := listed_of_silent hturn
        rw [show (s.walker.turn w (.directory path depth)).next = _ from hsome] at hnext
        obtain ⟨rfl, rfl⟩ := Prod.mk.inj (Option.some.inj hnext)
        rw [show (s.walker.turn w (.directory path depth)).emitted = [] from hnil, List.append_nil]
        exact (hkept hevents).directory hnames henlisted

theorem look_of_admitted {child resolved : PosixPath} {info : Stat}
    (h : s.Admitted child resolved info) (hkind : info.kind = .directory) :
    s.look child = .directory resolved info.identity := by
  obtain ⟨link, hlink, hfollowed⟩ := h.link
  have hpolicy : (link && !s.config.followSymlinks) = false := by
    cases link <;> simp_all
  simp [look, hlink, hpolicy, h.contained, h.stat, hkind]

theorem Frontier.reach {w : WalkState} {events : List WalkEvent} (h : s.Frontier w [] events)
    (hdir : s.tree.isDir s.root) {path : PosixPath} (hreach : s.Reach path) :
    s.Listed w [] events path := by
  have hdone : ∀ {path info}, s.tree.resolve false path = some path →
      s.tree.stat path = .ok info → info.kind = .directory → info.identity ∈ w.seen →
      s.Listed w [] events path := by
    intro path info hresolved hinfo hkind hseen
    rcases h.listed path info hresolved hinfo hkind hseen with ⟨depth, hdepth⟩ | hlisted
    · simp at hdepth
    · exact hlisted
  induction hreach with
  | root =>
      unfold FileSystem.isDir at hdir
      split at hdir
      · rename_i info hinfo
        exact hdone s.root_resolved hinfo (by simpa using hdir) (h.rooted info hinfo)
      · cases hdir
  | child hparent hnames hname hadmitted hkind ih =>
      obtain ⟨names', hnames', hall⟩ := ih
      obtain rfl := Except.ok.inj (hnames.symm.trans hnames')
      have hlook := look_of_admitted hadmitted hkind
      have hresolved :=
        s.isTree.resolve_resolved (FileSystem.resolve_of_contained hadmitted.contained)
      rcases hall _ hname with ⟨path, identity, hl, hid⟩ | ⟨e, hl, -⟩
      · rw [hlook] at hl
        obtain ⟨-, rfl⟩ := Look.directory.inj hl
        exact hdone hresolved hadmitted.stat hkind hid
      · rw [hlook] at hl
        cases hl

/-- Every file in reach was handed out. -/
theorem entry_of_reachableFile (hdir : s.tree.isDir s.root) (h : Silent s.walk) {key : PyStr}
    {path : PosixPath} (hfile : s.ReachableFile key path) :
    ∃ e, .entry e ∈ s.walk ∧ e.key = key ∧ e.path = path := by
  obtain ⟨w, hfrontier⟩ := frontier_of_silent hdir h
  obtain ⟨directory, names, name, info, hreach, hnames, hname, hadmitted, hkind, rfl⟩ := hfile
  obtain ⟨names', hnames', hall⟩ := hfrontier.reach hdir hreach
  obtain rfl := Except.ok.inj (hnames.symm.trans hnames')
  have hagree : ∀ {path' info'}, s.Admitted (directory ++ [name]) path' info' →
      path' = path ∧ info' = info := by
    intro path' info' h'
    obtain rfl := Option.some.inj (h'.contained.symm.trans hadmitted.contained)
    exact ⟨rfl, Except.ok.inj (h'.stat.symm.trans hadmitted.stat)⟩
  rcases hall name hname with ⟨path', identity, hlook, -⟩ | ⟨e, hlook, hstack | hevent⟩
  · obtain ⟨info', h', hkind', -⟩ := look_eq_directory hlook
    rw [(hagree h').2, hkind] at hkind'
    cases hkind'
  · simp at hstack
  · obtain ⟨info', h', -, hkey, -⟩ := look_eq_file hlook
    exact ⟨e, hevent, hkey, (hagree h').1⟩

end Share

section Totals
variable {κ ρ : Type} {h : Events κ ShareReference ShareCheckpoint ρ}
  {e : ConnectorEvent κ ShareReference ShareCheckpoint ρ}

/-- The totals that a clean coverage has at zero. -/
def Fileshare.GapIndex (i : CoverageIndex) : Prop := i = .skipped ∨ i = .failed ∨ i = .scopeGaps

theorem Fileshare.weight_nonneg {i : CoverageIndex} (hi : GapIndex i) : 0 ≤ e.weight i := by
  rcases hi with rfl | rfl | rfl <;> cases e <;>
    simp [ConnectorEvent.weight, scannedWeight, skippedWeight, failedWeight, scopeGapWeight,
      observedWeight, gapWeight]
  all_goals split_ifs <;> simp [incompleteWeight, gapWeight]

theorem Fileshare.totalsOf_cons (e : ConnectorEvent κ ShareReference ShareCheckpoint ρ)
    (h : Events κ ShareReference ShareCheckpoint ρ) (i : CoverageIndex) :
    totalsOf (e :: h) i = e.weight i + totalsOf h i := by
  simp [totalsOf]

theorem Fileshare.totalsOf_nonneg {i : CoverageIndex} (hi : GapIndex i) : 0 ≤ totalsOf h i := by
  induction h with
  | nil => simp [totalsOf]
  | cons e h ih =>
      rw [totalsOf_cons]
      exact add_nonneg (weight_nonneg hi) ih

theorem Fileshare.weight_eq_zero {i : CoverageIndex} (hi : GapIndex i) (htotal : totalsOf h i = 0)
    (he : e ∈ h) : e.weight i = 0 := by
  induction h with
  | nil => simp at he
  | cons e' h ih =>
      have hone := weight_nonneg (e := e') hi
      have hrest := totalsOf_nonneg (h := h) hi
      rw [totalsOf_cons] at htotal
      rcases List.mem_cons.1 he with rfl | he
      · omega
      · exact ih (by omega) he

end Totals

namespace FileshareConnector

variable {κ ρ : Type} {c : FileshareConnector} {s : Share}

/-- The calls of the connector protocol a log amounts to. -/
def history (d : UnitDetection κ) (log : List (ℕ × FetchEvent)) :
    Events κ ShareReference ShareCheckpoint ρ :=
  log.filterMap fun x => x.2.toConnector d

/-- The fetch ran to its end, and its coverage has no skip, no failure and no scope gap. -/
structure EndsClean (ρ : Type) (d : UnitDetection κ)
    (digest : CoverageObjectKind → ShareReference → GapReference) (log : List (ℕ × FetchEvent)) :
    Prop where
  ended : ∀ x ∈ log, x.2 ≠ .raised
  coverage : ∃ cov, coverageOf digest (history (ρ := ρ) d log) = some cov ∧ cov.skipped = 0 ∧
    cov.failed = 0 ∧ cov.scopeGaps = 0

/-- For every regular file under the root a unit holds the whole text of the file. -/
def ReadsEverything (c : FileshareConnector) (s : Share) (rootName : PyStr) : Prop :=
  ∀ key path, s.ReachableFile key path → ∃ turn u data,
    (turn, .yield u) ∈ c.fetchLog s rootName none ∧ u.locator.resourceId = key ∧
      s.tree.readBytes path = .ok data ∧
      c.readers.Complete c.limits data (pathName key) u.text

variable {d : UnitDetection κ} {digest : CoverageObjectKind → ShareReference → GapReference}

theorem EndsClean.no_record {log : List (ℕ × FetchEvent)} (h : EndsClean ρ d digest log)
    (x : ℕ × FetchEvent) (hx : x ∈ log) (r : ShareRecord) : x.2 ≠ .record r := by
  intro heq
  obtain ⟨cov, hcov, hskipped, hfailed, hgaps⟩ := h.coverage
  have htotals := totals_of_coverageOf hcov
  have hmem : ∀ event, x.2.toConnector d = some event → event ∈ history (ρ := ρ) d log :=
    fun event hevent => List.mem_filterMap.2 ⟨x, hx, hevent⟩
  cases r with
  | skipped reason ref =>
      have hzero := weight_eq_zero (Or.inl rfl) (by rw [← htotals]; exact hskipped)
        (hmem _ (by rw [heq]; rfl))
      simp [ConnectorEvent.weight, skippedWeight, observedWeight, gapWeight] at hzero
  | failed reason ref =>
      have hzero := weight_eq_zero (Or.inr (Or.inl rfl)) (by rw [← htotals]; exact hfailed)
        (hmem _ (by rw [heq]; rfl))
      simp [ConnectorEvent.weight, failedWeight, observedWeight, gapWeight] at hzero
  | scopeGap reason ref =>
      have hzero := weight_eq_zero (Or.inr (Or.inr rfl)) (by rw [← htotals]; exact hgaps)
        (hmem _ (by rw [heq]; rfl))
      simp [ConnectorEvent.weight, scopeGapWeight, gapWeight] at hzero

theorem EndsClean.isDir {rootName : PyStr} {resumeFrom : Option ShareCheckpoint}
    (h : EndsClean ρ d digest (c.fetchLog s rootName resumeFrom)) : s.tree.isDir s.root := by
  by_contra hdir
  simp only [fetchLog, hdir] at h
  exact h.no_record _ (List.mem_singleton_self _) _ rfl

theorem EndsClean.silent {rootName : PyStr}
    (h : EndsClean ρ d digest (c.fetchLog s rootName none)) :
    Share.Silent s.walk := by
  intro ev hev
  obtain ⟨i, hi, rfl⟩ := List.getElem_of_mem hev
  have hmem : ∀ event ∈ c.serve s none s.walk[i], (0 + i, event) ∈ c.fetchLog s rootName none := by
    intro event hevent
    rw [fetchLog, if_pos h.isDir]
    exact mem_serveFrom.2 ⟨i, _, List.getElem?_eq_getElem hi, rfl, hevent⟩
  cases hwalk : s.walk[i] with
  | entry e => exact ⟨e, rfl⟩
  | record r => exact absurd rfl (h.no_record _ (hmem (.record r) (by simp [hwalk, serve])) r)
  | raised => exact absurd rfl (h.ended _ (hmem .raised (by simp [hwalk, serve])))

theorem EndsClean.exists_unit {rootName : PyStr}
    (h : EndsClean ρ d digest (c.fetchLog s rootName none)) {e : Entry} (he : .entry e ∈ s.walk) :
    ∃ turn u data, (turn, .yield u) ∈ c.fetchLog s rootName none ∧ c.UnitOf s e u data := by
  obtain ⟨i, hi, hwalk⟩ := List.getElem_of_mem he
  have hmem : ∀ event ∈ c.read s e, (0 + i, event) ∈ c.fetchLog s rootName none := by
    intro event hevent
    rw [fetchLog, if_pos h.isDir]
    refine mem_serveFrom.2 ⟨i, .entry e, ?_, rfl, ?_⟩
    · rw [List.getElem?_eq_getElem hi, hwalk]
    · simp [serve, covered, resumeKey, hevent]
  rcases c.read_cases (s := s) e with ⟨r, -, hread⟩ | ⟨u, data, hunit, hread⟩
  · exact absurd rfl (h.no_record _ (hmem (.record r) (by simp [hread])) r)
  · exact ⟨0 + i, u, data, hmem _ (by simp [hread]), hunit⟩

theorem unit_text_length {rootName : PyStr} {resumeFrom : Option ShareCheckpoint} {turn : ℕ}
    {u : ShareUnit} (h : (turn, .yield u) ∈ c.fetchLog s rootName resumeFrom) :
    u.text.length ≤ c.limits.maxOutputChars := by
  unfold fetchLog at h
  split_ifs at h
  · obtain ⟨i, ev, -, -, hserved⟩ := mem_serveFrom.1 h
    cases ev with
    | record r => simp [serve] at hserved
    | raised => simp [serve] at hserved
    | entry e =>
        simp only [serve] at hserved
        split_ifs at hserved
        · simp at hserved
        · rcases c.read_cases (s := s) e with ⟨r, -, hread⟩ | ⟨u', data, hunit, hread⟩
          · simp [hread] at hserved
          · obtain rfl : u = u' := by simpa [hread] using hserved
            obtain ⟨kind, parsed, -, -, htext, -⟩ := Readers.extractText_extracted hunit.extracted
            rw [hunit.text, htext]
            exact List.length_take_le _ _
  · simp at h

/-- A fetch that ends clean has read every file whole exactly if the text of every file in
reach fits in the output limit. -/
theorem readsEverything_iff (c : FileshareConnector) (s : Share) (rootName : PyStr)
    (h : EndsClean ρ d digest (c.fetchLog s rootName none)) :
    c.ReadsEverything s rootName ↔
      ∀ key path data, s.ReachableFile key path → s.tree.readBytes path = .ok data →
        c.readers.Fits c.limits data (pathName key) := by
  constructor
  · intro hreads key path data hfile hdata
    obtain ⟨turn, u, data', hyield, -, hdata', hcomplete⟩ := hreads key path hfile
    obtain rfl := Except.ok.inj (hdata'.symm.trans hdata)
    exact hcomplete.fits (unit_text_length hyield)
  · intro hfits key path hfile
    obtain ⟨e, he, rfl, rfl⟩ := s.entry_of_reachableFile h.isDir h.silent hfile
    obtain ⟨turn, u, data, hyield, hunit⟩ := h.exists_unit he
    refine ⟨turn, u, data, hyield, hunit.key, hunit.read, ?_⟩
    rw [hunit.text]
    exact (hfits e.key e.path data hfile hunit.read).complete hunit.extracted

def noDetection : UnitDetection ℕ where
  candidates _ := []
  droppedBelowThreshold _ := 0
  truncated _ := false

def zeroDigest (_ : CoverageObjectKind) (_ : ShareReference) : GapReference :=
  ⟨_, zeros_wellFormed⟩

theorem readsEverything_filesShare_iff :
    asciiConnector.ReadsEverything filesShare [] ↔
      ∀ key path data, filesShare.ReachableFile key path →
        filesShare.tree.readBytes path = .ok data →
          asciiReaders.Fits {} data (pathName key) := by
  have hclean : EndsClean Unit noDetection zeroDigest
      (asciiConnector.fetchLog filesShare [] none) := by
    rw [fetchLog_of_isDir rfl]
    exact ⟨by decide +kernel, _, rfl, rfl, rfl, rfl⟩
  exact readsEverything_iff asciiConnector filesShare [] hclean

def oneFileShare (data : List UInt8) : Share :=
  .flat shareConfig [shareName] [{ aTxt with content := .ok data }] (List.nodup_singleton _)

theorem order_oneFileShare (data : List UInt8) :
    (oneFileShare data).order =
      [.entry ⟨pyStr "a.txt", [shareName, aTxt.name], data.length, by decide⟩] := rfl

def letters (n : ℕ) : List UInt8 := List.replicate n 0x61

theorem extractPlainText_letters (n : ℕ) :
    asciiReaders.extractPlainText (letters (n + 1)) =
      .ok { text := List.replicate (n + 1) 0x61 } := by
  have hmarks : byteOrderMarks.find? (fun mark => mark.1.isPrefixOf (letters (n + 1))) = none := by
    simp [byteOrderMarks, letters, List.replicate_succ]
  have hzero : 0 ∉ (letters (n + 1)).take 8192 := by
    simp [letters, List.take_replicate]
  have hdecode : asciiReaders.decode .utf8 (letters (n + 1)) = List.replicate (n + 1) 0x61 := by
    simp [asciiReaders, letters]
  rw [Readers.extractPlainText, hmarks]
  simp only [if_neg hzero, hdecode]

theorem extracted_letters {n : ℕ} (h : n + 1 ≤ 32 * 1024 * 1024) :
    (asciiReaders.extractText {} (letters (n + 1)) (pathName (pyStr "a.txt"))).outcome =
      .extracted := by
  have hkind : classify (pathName (pyStr "a.txt")) = some .text := by decide +kernel
  have hsmall : ¬ ({} : ExtractionLimits).maxInputBytes < (letters (n + 1)).length := by
    rw [letters, List.length_replicate]
    exact not_lt.2 h
  have hblank : blank (List.replicate (n + 1) 0x61) = false := by
    have hletter : isSpace (Char.ofNat 0x61) = false := by decide
    simp [blank, List.replicate_succ, hletter]
  have hne : letters (n + 1) ≠ [] := by simp [letters]
  have hextractor : asciiReaders.extractor {} .text (letters (n + 1)) =
      .ok { text := List.replicate (n + 1) 0x61 } := extractPlainText_letters n
  have hsandbox : asciiReaders.sandboxFault .text (letters (n + 1)) = none := rfl
  unfold Readers.extractText
  rw [if_neg hsmall, if_neg hne, hkind]
  simp only [hsandbox, hextractor, hblank, Bool.false_eq_true, if_false]

theorem readBytes_oneFileShare (data : List UInt8) :
    (oneFileShare data).tree.readBytes [shareName, aTxt.name] = .ok data := rfl

theorem reachable_oneFileShare (data : List UInt8) :
    (oneFileShare data).ReachableFile (pyStr "a.txt") [shareName, aTxt.name] :=
  ⟨[shareName], [aTxt.name], aTxt.name, ({ aTxt with content := .ok data } : PlainEntry).stat,
    .root, rfl, List.mem_singleton_self _, ⟨⟨false, rfl, nofun⟩, rfl, rfl⟩, rfl, rfl⟩

theorem cuts_letters {n : ℕ} (hlong : 8 * 1024 * 1024 < n + 1) (hsmall : n + 1 ≤ 32 * 1024 * 1024) :
    EndsClean Unit noDetection zeroDigest
        (asciiConnector.fetchLog (oneFileShare (letters (n + 1))) [] none) ∧
      ¬ asciiConnector.ReadsEverything (oneFileShare (letters (n + 1))) [] := by
  have hextracted := extracted_letters hsmall
  have hlength : (letters (n + 1)).length = n + 1 := List.length_replicate
  constructor
  · have hsize : ((letters (n + 1)).length : ℤ) ≤ 32 * 1024 * 1024 := by
      rw [hlength]
      omega
    obtain ⟨u, -, hread⟩ := read_of_extracted (c := asciiConnector)
      (s := oneFileShare (letters (n + 1)))
      (e := ⟨pyStr "a.txt", [shareName, aTxt.name], (letters (n + 1)).length, by decide⟩)
      hsize rfl hextracted
    rw [fetchLog_of_isDir rfl, order_oneFileShare]
    simp only [serveFrom, serve, covered, resumeKey, Option.any_none, Bool.false_eq_true, if_false,
      hread, List.cons_append, List.nil_append, List.map_cons, List.map_nil, List.append_nil]
    exact ⟨by simp, _, rfl, rfl, rfl, rfl⟩
  · intro h
    obtain ⟨turn, u, data, hyield, -, hdata, hcomplete⟩ := h _ _ (reachable_oneFileShare _)
    obtain rfl := Except.ok.inj (hdata.symm.trans (readBytes_oneFileShare _))
    have hshort := unit_text_length hyield
    have hkind : classify (pathName (pyStr "a.txt")) = some .text := by decide +kernel
    have hwhole := hcomplete.text
    simp only [Readers.wholeText, hkind, asciiConnector, extractPlainText_letters, Except.toOption,
      Option.map_some, Option.some.injEq] at hwhole
    rw [← hwhole, List.length_replicate] at hshort
    exact absurd hshort (not_le.2 hlong)

/-- One character more than the limit is cut off, and the coverage is clean. -/
theorem cuts_longTxt :
    EndsClean Unit noDetection zeroDigest
        (asciiConnector.fetchLog (oneFileShare (letters (8 * 1024 * 1024 + 1))) [] none) ∧
      ¬ asciiConnector.ReadsEverything (oneFileShare (letters (8 * 1024 * 1024 + 1))) [] :=
  cuts_letters (Nat.lt_succ_self _) (by decide)

end FileshareConnector

end IcebergSST
