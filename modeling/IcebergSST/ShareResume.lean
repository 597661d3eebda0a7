import IcebergSST.ShareFetch
import IcebergSST.ShareOrder

/-!
# Resuming the fetch of a share

A resumed fetch walks the same tree again, records everything the walk records, and reads
the files whose position comes after the checkpoint's. The attempt it follows had recorded
all that the walk came to before the checkpoint. The two together are one fetch exactly if
the walk came to nothing but files before, and the order of the positions is the order of
the walk on both sides of the checkpoint.
-/

namespace IcebergSST

open Fileshare

/-- The objects of a log that a predicate picks, each with its turn in the walk. -/
def Fileshare.pick (p : FetchEvent → Bool) (log : List (ℕ × FetchEvent)) : List (ℕ × FetchEvent) :=
  log.filter fun x => p x.2

theorem Fileshare.mem_pick {p : FetchEvent → Bool} {log : List (ℕ × FetchEvent)}
    {x : ℕ × FetchEvent} : x ∈ pick p log ↔ x ∈ log ∧ p x.2 := List.mem_filter

@[simp] theorem Fileshare.pick_append (p : FetchEvent → Bool) (log log' : List (ℕ × FetchEvent)) :
    pick p (log ++ log') = pick p log ++ pick p log' := List.filter_append ..

/-- What was done before a checkpoint and what a fetch resumed from it does are what one
fetch does, every file and every disposition once. -/
structure FileshareConnector.ResumesExactly (c : FileshareConnector) (s : Share)
    (rootName : PyStr) (before : List (ℕ × FetchEvent)) (cp : ShareCheckpoint) : Prop where
  units : (pick FetchEvent.IsUnit (before ++ c.fetchLog s rootName (some cp))).Perm
    (pick FetchEvent.IsUnit (c.fetchLog s rootName none))
  dispositions : (pick FetchEvent.IsDisposition (before ++ c.fetchLog s rootName (some cp))).Perm
    (pick FetchEvent.IsDisposition (c.fetchLog s rootName none))

/-- In the order of the tree nothing but files comes before this turn, and the positions
before and after it are on their sides of the key's. -/
structure Share.ResumableAt (s : Share) (turn : ℕ) (key : PyStr) : Prop where
  quiet : ∀ i < turn, ∀ r, s.order[i]? ≠ some (.record r)
  before : ∀ i < turn, ∀ e, s.order[i]? = some (.entry e) →
    Fileshare.position e.key ≤ Fileshare.position key
  after : ∀ i > turn, ∀ e, s.order[i]? = some (.entry e) →
    Fileshare.position key < Fileshare.position e.key

namespace FileshareConnector

variable {c : FileshareConnector} {s : Share} {p : FetchEvent → Bool} {key : PyStr} {n : ℕ}
  {events : List WalkEvent}

/-- A part of the walk that holds only files the checkpoint covers is passed over. -/
theorem pick_serveFrom_covered (hraised : p .raised = false)
    (hquiet : ∀ r, .record r ∉ events)
    (hcovered : ∀ e, .entry e ∈ events → Fileshare.position e.key ≤ Fileshare.position key) :
    pick p (c.serveFrom s (some key) n events) = [] := by
  apply List.eq_nil_iff_forall_not_mem.2
  intro x hx
  obtain ⟨hx, hp⟩ := mem_pick.1 hx
  obtain ⟨i, ev, hi, -, hev⟩ := mem_serveFrom.1 hx
  have hmem := List.mem_of_getElem? hi
  cases ev with
  | record r => exact hquiet r hmem
  | raised =>
      have hx2 : x.2 = .raised := by simpa [serve] using hev
      rw [hx2, hraised] at hp
      cases hp
  | entry e => simp [serve, covered, hcovered e hmem] at hev

theorem serveFrom_uncovered
    (h : ∀ e, .entry e ∈ events → Fileshare.position key < Fileshare.position e.key) :
    c.serveFrom s (some key) n events = c.serveFrom s none n events := by
  induction events generalizing n with
  | nil => rfl
  | cons ev events ih =>
      have hrest := ih (n := n + 1) fun e he => h e (List.mem_cons_of_mem _ he)
      have hone : c.serve s (some key) ev = c.serve s none ev := by
        cases ev with
        | entry e => simp [serve, covered, h e List.mem_cons_self]
        | record r => rfl
        | raised => rfl
      rw [serveFrom, serveFrom, hrest, hone]

/-- What the first attempt did up to its checkpoint is what one fetch does there; the rest
of that fetch is for the resumed attempt to match. -/
theorem perm_resumed_iff {e : Entry} {events₁ events₂ : List WalkEvent}
    (hp : ∀ cp, p (.checkpointAt cp) = false) :
    (pick p ((c.serveFrom s none 0 events₁ ++ (c.read s e).map (events₁.length, ·)) ++
        c.serveFrom s (some e.key) 0 (events₁ ++ .entry e :: events₂))).Perm
      (pick p (c.serveFrom s none 0 (events₁ ++ .entry e :: events₂))) ↔
    (pick p (c.serveFrom s (some e.key) 0 events₁) ++
        pick p (c.serveFrom s (some e.key) (events₁.length + 1) events₂)).Perm
      (pick p (c.serveFrom s none (events₁.length + 1) events₂)) := by
  have hself : c.serve s (some e.key) (.entry e) = [] := by simp [serve, covered]
  have hfresh : pick p ((c.serve s none (.entry e)).map (events₁.length, ·)) =
      pick p ((c.read s e).map (events₁.length, ·)) := by
    simp [serve, covered, pick, hp]
  simp only [serveFrom_append, serveFrom, hself, List.map_nil, List.nil_append, pick_append,
    hfresh, Nat.zero_add, List.append_assoc, List.perm_append_left_iff]

theorem resumableAt_of_perm {e : Entry} {events₁ events₂ : List WalkEvent}
    (horder : s.order = events₁ ++ .entry e :: events₂)
    (h : (pick FetchEvent.IsDisposition (c.serveFrom s (some e.key) 0 events₁) ++
        pick FetchEvent.IsDisposition
          (c.serveFrom s (some e.key) (events₁.length + 1) events₂)).Perm
      (pick FetchEvent.IsDisposition (c.serveFrom s none (events₁.length + 1) events₂))) :
    s.ResumableAt events₁.length e.key := by
  -- what is left for the resumed attempt belongs to later turns
  have hbefore : ∀ i < events₁.length, ∀ ev, s.order[i]? = some ev →
      ∀ d ∈ c.serve s (some e.key) ev, d.IsDisposition = false := by
    intro i hi ev hev d hd
    by_contra hdisposition
    rw [horder, List.getElem?_append_left hi] at hev
    have hmem : (i, d) ∈ pick FetchEvent.IsDisposition (c.serveFrom s (some e.key) 0 events₁) :=
      mem_pick.2 ⟨mem_serveFrom.2 ⟨i, ev, hev, by simp, hd⟩, by simpa using hdisposition⟩
    have hlater := h.subset (List.mem_append_left _ hmem)
    obtain ⟨j, -, -, hj, -⟩ := mem_serveFrom.1 (mem_pick.1 hlater).1
    simp only at hj
    omega
  refine ⟨?_, ?_, ?_⟩
  · intro i hi r hr
    have := hbefore i hi _ hr (.record r) (by simp [serve])
    cases this
  · intro i hi e' he'
    by_contra hlt
    obtain ⟨d, hd, hdisposition⟩ := c.exists_disposition_mem_read (s := s) e'
    have := hbefore i hi _ he' d (by simp [serve, covered, hlt, hd])
    simp_all
  · intro i hi e' he'
    obtain ⟨j, rfl⟩ : ∃ j, i = events₁.length + (j + 1) :=
      ⟨i - events₁.length - 1, by omega⟩
    have hev : events₂[j]? = some (.entry e') := by
      simpa [horder, List.getElem?_append_right] using he'
    obtain ⟨d, hd, hdisposition⟩ := c.exists_disposition_mem_read (s := s) e'
    have hwhole : (events₁.length + 1 + j, d) ∈ pick FetchEvent.IsDisposition
        (c.serveFrom s none (events₁.length + 1) events₂) :=
      mem_pick.2 ⟨mem_serveFrom.2 ⟨j, _, hev, rfl, by simp [serve, covered, hd]⟩, hdisposition⟩
    rcases List.mem_append.1 (h.symm.subset hwhole) with hearly | hlate
    · obtain ⟨k, ev, hk, hturn, -⟩ := mem_serveFrom.1 (mem_pick.1 hearly).1
      have hlt := (List.getElem?_eq_some_iff.1 hk).1
      simp only at hturn
      omega
    · obtain ⟨k, ev, hk, hturn, hserved⟩ := mem_serveFrom.1 (mem_pick.1 hlate).1
      obtain rfl : k = j := by
        simp only at hturn
        omega
      obtain rfl : ev = .entry e' := by
        rw [hev] at hk
        exact (Option.some.inj hk).symm
      by_contra hle
      simp [serve, covered, not_lt.1 hle] at hserved

theorem perm_of_resumableAt {e : Entry} {events₁ events₂ : List WalkEvent}
    (horder : s.order = events₁ ++ .entry e :: events₂)
    (h : s.ResumableAt events₁.length e.key) (hraised : p .raised = false) :
    (pick p (c.serveFrom s (some e.key) 0 events₁) ++
        pick p (c.serveFrom s (some e.key) (events₁.length + 1) events₂)).Perm
      (pick p (c.serveFrom s none (events₁.length + 1) events₂)) := by
  have hearly : ∀ ev ∈ events₁, ∃ i < events₁.length, s.order[i]? = some ev := by
    intro ev hev
    obtain ⟨i, hi, rfl⟩ := List.getElem_of_mem hev
    exact ⟨i, hi, by simp [horder, List.getElem?_append_left, hi]⟩
  have hlate : ∀ ev ∈ events₂, ∃ i > events₁.length, s.order[i]? = some ev := by
    intro ev hev
    obtain ⟨i, hi, rfl⟩ := List.getElem_of_mem hev
    refine ⟨events₁.length + (i + 1), by omega, ?_⟩
    simp [horder, hi]
  rw [pick_serveFrom_covered hraised, serveFrom_uncovered, List.nil_append]
  · intro e' he'
    obtain ⟨i, hi, hev⟩ := hlate _ he'
    exact h.after i hi e' hev
  · intro r hr
    obtain ⟨i, hi, hev⟩ := hearly _ hr
    exact h.quiet i hi r hev
  · intro e' he'
    obtain ⟨i, hi, hev⟩ := hearly _ he'
    exact h.before i hi e' hev

end FileshareConnector

/-- Where links are not followed the positions are in order, and all that can go wrong is
an object recorded before the file. -/
theorem Share.resumableAt_iff_of_links_off {s : Share} (hlinks : s.config.followSymlinks = false)
    {turn : ℕ} {e : Entry} (he : s.order[turn]? = some (.entry e)) :
    s.ResumableAt turn e.key ↔ ∀ i < turn, ∀ r, s.order[i]? ≠ some (.record r) := by
  constructor
  · exact fun h => h.quiet
  · intro hquiet
    refine ⟨hquiet, ?_, ?_⟩
    · intro i hi e' he'
      exact (positions_increase hlinks hi he' he).le
    · intro i hi e' he'
      exact positions_increase hlinks hi he he'

/-- A named pipe, which the walk skips while it lists the directory. -/
def aPipe : PlainEntry where
  name := ⟨pyStr "a", by decide⟩
  regular := false
  content := .error .other

def pipeShare : Share := .flat shareConfig [shareName] [bTxt, aPipe] (by decide)

namespace FileshareConnector

/-- A fetch and the fetch resumed from a checkpoint it published are one fetch, with every
file and every disposition once, exactly if the walk came to nothing but files before the
checkpoint's and the positions of the files are in the order of the walk around it. -/
theorem resumesExactly_iff (c : FileshareConnector) (s : Share) (rootName : PyStr)
    {before after : List (ℕ × FetchEvent)} {turn : ℕ} {cp : ShareCheckpoint}
    (h : c.fetchLog s rootName none = before ++ (turn, .checkpointAt cp) :: after) :
    c.ResumesExactly s rootName before cp ↔
      ∃ key, cp.after = some key ∧ s.ResumableAt turn key := by
  have hdir : s.tree.isDir s.root := by
    by_contra hdir
    simp [fetchLog, hdir, List.singleton_eq_append_iff] at h
  rw [fetchLog_of_isDir hdir] at h
  obtain ⟨events₁, e, events₂, horder, hturn, rfl, rfl⟩ := serveFrom_split h
  obtain rfl : turn = events₁.length := by simpa using hturn
  have hresume : resumeKey (some ⟨fileshareCheckpointVersion, some e.key⟩) = some e.key := by
    simp [resumeKey, e.key_ne_nil]
  constructor
  · intro hexact
    have hperm := hexact.dispositions
    rw [fetchLog_of_isDir hdir, fetchLog_of_isDir hdir, hresume, horder] at hperm
    exact ⟨_, rfl, resumableAt_of_perm horder ((perm_resumed_iff fun _ => rfl).1 hperm)⟩
  · rintro ⟨key, hkey, hat⟩
    obtain rfl := Option.some.inj hkey
    constructor
    · rw [fetchLog_of_isDir hdir, fetchLog_of_isDir hdir, hresume, horder]
      exact (perm_resumed_iff fun _ => rfl).2 (perm_of_resumableAt horder hat rfl)
    · rw [fetchLog_of_isDir hdir, fetchLog_of_isDir hdir, hresume, horder]
      exact (perm_resumed_iff fun _ => rfl).2 (perm_of_resumableAt horder hat rfl)

theorem resumesExactly_after_aTxt :
    asciiConnector.ResumesExactly filesShare []
      ((asciiConnector.serveFrom filesShare none 0 filesShare.order).take 2)
      ⟨fileshareCheckpointVersion, some (pyStr "a.txt")⟩ := by
  have hdir : filesShare.tree.isDir filesShare.root := rfl
  have hfile : filesShare.order[0]? = some (.entry ⟨pyStr "a.txt", _, 1, by decide⟩) := rfl
  have hlog : asciiConnector.fetchLog filesShare [] none =
      (asciiConnector.serveFrom filesShare none 0 filesShare.order).take 2 ++
        (0, .checkpointAt ⟨fileshareCheckpointVersion, some (pyStr "a.txt")⟩) ::
          (asciiConnector.serveFrom filesShare none 0 filesShare.order).drop 3 := by
    rw [fetchLog_of_isDir hdir]
    decide +kernel
  refine (resumesExactly_iff asciiConnector filesShare [] hlog).2 ⟨_, rfl, ?_⟩
  refine (Share.resumableAt_iff_of_links_off rfl hfile).2 ?_
  intro i hi
  omega

/-- The skip recorded ahead of the checkpoint is recorded again by the resumed fetch. -/
theorem records_twice_after_bTxt :
    asciiConnector.fetchLog pipeShare [] none =
        (asciiConnector.serveFrom pipeShare none 0 pipeShare.order).take 3 ++
          [(1, .checkpointAt ⟨fileshareCheckpointVersion, some (pyStr "b.txt")⟩)] ∧
      ¬ asciiConnector.ResumesExactly pipeShare []
        ((asciiConnector.serveFrom pipeShare none 0 pipeShare.order).take 3)
        ⟨fileshareCheckpointVersion, some (pyStr "b.txt")⟩ := by
  have hdir : pipeShare.tree.isDir pipeShare.root := rfl
  constructor
  · rw [fetchLog_of_isDir hdir]
    decide +kernel
  · intro h
    have hlength := h.dispositions.length_eq
    rw [fetchLog_of_isDir hdir, fetchLog_of_isDir hdir] at hlength
    revert hlength
    decide +kernel

end FileshareConnector

end IcebergSST
