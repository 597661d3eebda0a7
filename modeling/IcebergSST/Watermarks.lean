import Mathlib.Data.List.ReduceOption
import IcebergSST.PeriodicFull

/-!
# What a cursor vouches for

A cursor says that everything behind its position was shown to the pack it names, by the
scan that stored it or, for what that scan did not read again, by the scans it built on.
`behind` is the content of a scope at or behind a position, under a configuration.

The engine's half of the argument is `Honest`: a report without gaps was sent after the
rest of the spec was inspected, and a proposal claims no more than the positions the
scan was given and the specs of its tasks. The API's half is the finalization gate. What
the API does not ensure is `OnePack`, and a run that keeps to it has sound cursors.
-/

namespace IcebergSST

variable {κ P π : Type}

/-- Nothing skipped, failed or missed. -/
def CoveragePayload.Clean (p : CoveragePayload) : Prop :=
  p.counts.skipped = 0 ∧ p.counts.failed = 0 ∧ p.scope.gaps = 0

instance (p : CoveragePayload) : Decidable p.Clean := inferInstanceAs (Decidable (_ ∧ _))

/-- `x` was shown to pack `v` by the scan with this id, or by one it builds on. -/
inductive Covered (finished : List (FinishedScan P π)) (scope v : String) (x : π) : ℕ → Prop
  | here {r : FinishedScan P π} : r ∈ finished → r.complete → ⟨scope, x, v⟩ ∈ r.inspected →
      Covered finished scope v x r.row.id
  | earlier {r : FinishedScan P π} {c : SourceCursor P} : r ∈ finished → r.complete →
      c ∈ r.builtOn → c.scope = scope → Covered finished scope v x c.mintedByScanId →
      Covered finished scope v x r.row.id

section Connector
variable (behind : Option ℕ → String → CursorPosition P → List π)

/-- Everything behind the cursor was shown to the pack it names. -/
def Vouched (finished : List (FinishedScan P π)) (c : SourceCursor P) : Prop :=
  ∀ v, c.rulepackVersion = some v →
    ∀ x ∈ behind c.sourceConfigurationVersion c.scope c.position,
      Covered finished c.scope v x c.mintedByScanId

namespace ActiveScan

/-- What a proposal claims is behind a position the scan was given, or in a spec. -/
def Licenses (s : ActiveScan P π) (p : CursorProposal P) : Prop :=
  ∀ q ∈ p.position, ∀ x ∈ behind s.row.sourceConfigurationVersion p.scope ⟨p.version, q⟩,
    (∃ c ∈ s.builtOn, c.scope = p.scope ∧
        x ∈ behind s.row.sourceConfigurationVersion c.scope c.position) ∨
      ∃ item ∈ s.items, item.content.scope = p.scope ∧ x ∈ item.content.pieces

/-- What the runner and the connector ensure of the work they send. -/
def Honest (s : ActiveScan P π) (item : WorkItem P π) (a : WorkAttempt P) :
    TaskAction κ P π → Prop
  | .progress body seen =>
      body.coverage.isSome ∧ ∀ c ∈ body.coverage, c.phase = item.row.kind ∧
        (c.Clean → ∀ x ∈ (item.content.pieces.take body.checkpoint).drop a.read, x ∈ seen)
  | .results body seen _ =>
      body.coverage.isSome ∧
        (body.status = .completed → ∀ c ∈ body.coverage, c.Clean →
          ∀ x ∈ item.content.pieces.drop a.read, x ∈ seen) ∧
        ∀ p ∈ body.cursor, s.Licenses behind p
  | _ => True

end ActiveScan

end Connector

namespace ActiveScan

def Accepts (s : ActiveScan P π) (item : WorkItem P π) (a : WorkAttempt P) :
    TaskAction κ P π → Bool
  | .progress body _ => !(s.afterProgress item a body).batches.isEmpty
  | .results body _ _ => !(s.afterResults item a body).results.isEmpty
  | _ => false

/-- The pack is the one the scan already names, and the one of every cursor the scan
builds on. -/
def SamePack (s : ActiveScan P π) (a : WorkAttempt P) : Prop :=
  (∀ v ∈ s.row.rulepackVersion, v = a.pack) ∧
    ∀ c ∈ s.builtOn ++ a.positions, c.rulepackVersion = some a.pack

end ActiveScan

def SourceWorld.working (w : SourceWorld P π) (i : ℕ) :
    Option (ActiveScan P π × WorkItem P π × WorkAttempt P) :=
  w.active.bind fun s => s.items[i]?.bind fun item => item.attempt.map fun a => (s, item, a)

def SourceWorld.Honest (behind : Option ℕ → String → CursorPosition P → List π)
    (w : SourceWorld P π) : SourceAction κ P π → Prop
  | .task i action => ∀ t ∈ w.working i, t.1.Honest behind t.2.1 t.2.2 action
  | _ => True

/-- Every batch and report the API accepts in a scan comes from one pack, in an
incremental scan that of the cursors it started from. -/
def SourceWorld.OnePack (w : SourceWorld P π) : SourceAction κ P π → Prop
  | .task i action => ∀ t ∈ w.working i, t.1.Accepts t.2.1 t.2.2 action → t.1.SamePack t.2.2
  | _ => True

section Decidable
variable [DecidableEq P] [DecidableEq π] (behind : Option ℕ → String → CursorPosition P → List π)

instance (s : ActiveScan P π) (p : CursorProposal P) : Decidable (s.Licenses behind p) :=
  inferInstanceAs (Decidable (∀ q ∈ p.position,
    ∀ x ∈ behind s.row.sourceConfigurationVersion p.scope ⟨p.version, q⟩, _ ∨ _))

instance (s : ActiveScan P π) (item : WorkItem P π) (a : WorkAttempt P) :
    ∀ action : TaskAction κ P π, Decidable (s.Honest behind item a action)
  | .progress body _ => inferInstanceAs (Decidable (_ ∧ ∀ c ∈ body.coverage, _ ∧ (_ → _)))
  | .results body _ _ =>
      inferInstanceAs (Decidable (_ ∧ (_ → ∀ c ∈ body.coverage, _ → _) ∧ ∀ p ∈ body.cursor, _))
  | .lease _ _ | .die | .renew | .reclaim => isTrue trivial

instance (s : ActiveScan P π) (a : WorkAttempt P) : Decidable (s.SamePack a) :=
  inferInstanceAs (Decidable ((∀ v ∈ s.row.rulepackVersion, v = a.pack) ∧
    ∀ c ∈ s.builtOn ++ a.positions, c.rulepackVersion = some a.pack))

instance (w : SourceWorld P π) : ∀ a : SourceAction κ P π, Decidable (w.Honest behind a)
  | .task i _ => inferInstanceAs (Decidable (∀ t ∈ w.working i, _))
  | .tick _ | .fleet _ | .edit | .dropCursors | .launch _ _ | .cancel | .finalize => isTrue trivial

instance (w : SourceWorld P π) : ∀ a : SourceAction κ P π, Decidable (w.OnePack a)
  | .task i _ => inferInstanceAs (Decidable (∀ t ∈ w.working i, _ → _))
  | .tick _ | .fleet _ | .edit | .dropCursors | .launch _ _ | .cancel | .finalize => isTrue trivial

end Decidable

theorem clean_of_merge {existing : Option TaskCoverageReport} {delta merged : TaskCoverageReport}
    (h : mergeTaskReport existing delta = some merged) (hclean : merged.payload.Clean) :
    delta.payload.Clean ∧ ∀ r ∈ existing, r.payload.Clean := by
  have htotals := storedTotals_mergeTaskReport h
  have hskipped := congrFun htotals .skipped
  have hfailed := congrFun htotals .failed
  have hgaps := congrFun htotals .scopeGaps
  have hd := delta.valid
  obtain ⟨h₁, h₂, h₃⟩ := hclean
  cases existing with
  | none =>
      obtain rfl : delta = merged := Option.some.inj h
      exact ⟨⟨h₁, h₂, h₃⟩, fun r hr => by cases hr⟩
  | some r =>
      have hr := r.valid
      simp only [storedTotals, Option.elim_some, TaskCoverageReport.totals,
        CoveragePayload.totals, Pi.add_apply] at hskipped hfailed hgaps
      have hd₁ := hd.counts.skipped_nonneg
      have hd₂ := hd.counts.failed_nonneg
      have hd₃ := hd.scope.gaps_nonneg
      have hr₁ := hr.counts.skipped_nonneg
      have hr₂ := hr.counts.failed_nonneg
      have hr₃ := hr.scope.gaps_nonneg
      refine ⟨⟨by omega, by omega, by omega⟩, ?_⟩
      intro r' hr'
      obtain rfl := Option.some.inj hr'
      exact ⟨by omega, by omega, by omega⟩

/-- The report a row holds has nothing skipped, failed or missed. -/
def Spotless (row : ScanTask ℕ (CursorProposal P)) : Prop :=
  ∀ r ∈ storedTaskReport row, r.payload.Clean

theorem spotless_of_coverageComplete {rows : List (ScanTask ℕ (CursorProposal P))}
    (h : coverageComplete rows) {row : ScanTask ℕ (CursorProposal P)} (hrow : row ∈ rows) :
    ∃ r, storedTaskReport row = some r ∧ r.payload.Clean := by
  unfold coverageComplete at h
  simp only [Bool.and_eq_true, decide_eq_true_eq] at h
  obtain ⟨⟨⟨hskipped, hfailed⟩, hgaps⟩, hunreported⟩ := h
  cases hr : storedTaskReport row with
  | none =>
      exfalso
      have hnone := List.countP_eq_zero.1 hunreported (storedTaskReport row)
        (List.mem_map_of_mem hrow)
      rw [hr] at hnone
      exact hnone rfl
  | some r =>
      refine ⟨r, rfl, ?_⟩
      have hmem : r.payload ∈
          ((rows.map storedTaskReport).reduceOption.map TaskCoverageReport.payload) :=
        List.mem_map_of_mem (List.reduceOption_mem_iff.2 (hr ▸ List.mem_map_of_mem hrow))
      have hvalid : ∀ p ∈ (rows.map storedTaskReport).reduceOption.map
          TaskCoverageReport.payload, p.Valid := by
        intro p hp
        obtain ⟨r', -, rfl⟩ := List.mem_map.1 hp
        exact r'.valid
      -- a sum of counts that are not negative is zero only if each of them is
      have hzero : ∀ f : CoveragePayload → ℤ, (∀ p : CoveragePayload, p.Valid → 0 ≤ f p) →
          (((rows.map storedTaskReport).reduceOption.map TaskCoverageReport.payload).map f).sum =
            0 → f r.payload = 0 := by
        intro f hf hsum
        refine List.all_zero_of_le_zero_le_of_sum_eq_zero ?_ hsum (List.mem_map_of_mem hmem)
        intro n hn
        obtain ⟨p, hp, rfl⟩ := List.mem_map.1 hn
        exact hf p (hvalid p hp)
      rw [hunreported, Nat.cast_zero, add_zero] at hgaps
      exact ⟨hzero _ (fun p hp => hp.counts.skipped_nonneg) hskipped,
        hzero _ (fun p hp => hp.counts.failed_nonneg) hfailed,
        hzero _ (fun p hp => hp.scope.gaps_nonneg) hgaps⟩

namespace ActiveScan

def Logged (s : ActiveScan P π) (scope : String) (x : π) : Prop :=
  ∃ e ∈ s.inspected, e.scope = scope ∧ e.piece = x

structure Grows (s s' : ActiveScan P π) : Prop where
  configuration : s'.row.sourceConfigurationVersion = s.row.sourceConfigurationVersion
  mode : s'.row.mode = s.row.mode
  inspected : s.inspected ⊆ s'.inspected
  builtOn : s.builtOn ⊆ s'.builtOn
  contents : ∀ item ∈ s.items, ∃ item' ∈ s'.items, item'.content = item.content

theorem Grows.refl (s : ActiveScan P π) : s.Grows s :=
  ⟨rfl, rfl, List.Subset.refl _, List.Subset.refl _, fun item hitem => ⟨item, hitem, rfl⟩⟩

theorem Logged.mono {s s' : ActiveScan P π} {scope : String} {x : π} (h : s.Logged scope x)
    (hg : s.Grows s') : s'.Logged scope x := by
  obtain ⟨e, he, hx⟩ := h
  exact ⟨e, hg.inspected he, hx⟩

theorem logged_shown {s : ActiveScan P π} {item : WorkItem P π} {a : WorkAttempt P}
    {seen : List π} (hs : shown item a seen ⊆ s.inspected) {x : π} (hx : x ∈ seen) :
    s.Logged item.content.scope x :=
  ⟨_, hs (List.mem_map_of_mem hx), rfl, rfl⟩

theorem exists_content_set {items : List (WorkItem P π)} {i : ℕ} {item item' : WorkItem P π}
    (hi : items[i]? = some item) (hcontent : item'.content = item.content) :
    ∀ x ∈ items, ∃ y ∈ items.set i item', y.content = x.content := by
  intro x hx
  obtain ⟨j, hj, rfl⟩ := List.mem_iff_getElem.1 hx
  by_cases hij : i = j
  · subst hij
    obtain rfl : items[i] = item := by
      rw [List.getElem?_eq_getElem hj] at hi
      exact Option.some.inj hi
    exact ⟨item', List.mem_set hj item', hcontent⟩
  · refine ⟨items[j], ?_, rfl⟩
    have hget : (items.set i item')[j]? = some items[j] := by
      rw [List.getElem?_set_ne hij, List.getElem?_eq_getElem hj]
    exact List.mem_of_getElem? hget

theorem grows_put {s : ActiveScan P π} {i : ℕ} {item item' : WorkItem P π}
    (hi : s.items[i]? = some item) (hcontent : item'.content = item.content) :
    s.Grows (s.put i item') :=
  ⟨rfl, rfl, List.Subset.refl _, List.Subset.refl _, exists_content_set hi hcontent⟩

end ActiveScan

section Connector
variable {behind : Option ℕ → String → CursorPosition P → List π}
variable {finished : List (FinishedScan P π)}

theorem ActiveScan.Licenses.mono {s s' : ActiveScan P π} {p : CursorProposal P}
    (h : s.Licenses behind p) (hg : s.Grows s') : s'.Licenses behind p := by
  intro q hq x hx
  rw [hg.configuration] at hx ⊢
  rcases h q hq x hx with ⟨c, hc, hx⟩ | ⟨item, hitem, hscope, hx⟩
  · exact Or.inl ⟨c, hg.builtOn hc, hx⟩
  · obtain ⟨item', hitem', hcontent⟩ := hg.contents item hitem
    rw [← hcontent] at hscope hx
    exact Or.inr ⟨item', hitem', hscope, hx⟩

/-- While a row's report is spotless, what lies behind its resume point was inspected;
once the task is completed, all of its spec was. -/
structure ItemSound (behind : Option ℕ → String → CursorPosition P → List π)
    (finished : List (FinishedScan P π)) (s : ActiveScan P π) (item : WorkItem P π) : Prop where
  untouched : item.row.checkpointSequence = 0 →
    item.row.checkpoint = none ∧ ∀ a ∈ item.attempt, a.read = 0
  durable : Spotless item.row → ∀ x ∈ item.content.pieces.take (item.row.checkpoint.getD 0),
    s.Logged item.content.scope x
  read : ∀ a ∈ item.attempt, Spotless item.row → ∀ x ∈ item.content.pieces.take a.read,
    s.Logged item.content.scope x
  done : item.row.status = .completed → Spotless item.row →
    ∀ x ∈ item.content.pieces, s.Logged item.content.scope x
  proposed : ∀ p ∈ item.row.cursorProposal, s.Licenses behind p
  given : ∀ a ∈ item.attempt, ∀ c ∈ a.positions, Vouched behind finished c ∧
    c.sourceConfigurationVersion = s.row.sourceConfigurationVersion

structure ActiveSound (behind : Option ℕ → String → CursorPosition P → List π)
    (finished : List (FinishedScan P π)) (s : ActiveScan P π) : Prop where
  onePack : ∀ e ∈ s.inspected, s.row.rulepackVersion = some e.pack
  basis : ∀ c ∈ s.builtOn, Vouched behind finished c ∧
    c.sourceConfigurationVersion = s.row.sourceConfigurationVersion ∧
      ∀ v ∈ s.row.rulepackVersion, c.rulepackVersion = some v
  items : ∀ item ∈ s.items, ItemSound behind finished s item

theorem ItemSound.mono {s s' : ActiveScan P π} {item : WorkItem P π}
    (h : ItemSound behind finished s item) (hg : s.Grows s') :
    ItemSound behind finished s' item where
  untouched := h.untouched
  durable hclean x hx := (h.durable hclean x hx).mono hg
  read a ha hclean x hx := (h.read a ha hclean x hx).mono hg
  done hdone hclean x hx := (h.done hdone hclean x hx).mono hg
  proposed p hp := (h.proposed p hp).mono hg
  given a ha c hc := ⟨(h.given a ha c hc).1, hg.configuration ▸ (h.given a ha c hc).2⟩

/-- The row of a task, rewritten in what its work does not depend on. -/
structure SameWork (row row' : ScanTask ℕ (CursorProposal P)) : Prop where
  kind : row'.kind = row.kind
  coverage : row'.coverage = row.coverage
  sequence : row'.checkpointSequence = row.checkpointSequence
  checkpoint : row'.checkpoint = row.checkpoint ∨ row'.checkpoint = none
  proposal : row'.cursorProposal = row.cursorProposal
  status : row'.status = .completed → row.status = .completed

theorem SameWork.spotless {row row' : ScanTask ℕ (CursorProposal P)} (h : SameWork row row')
    (hclean : Spotless row') : Spotless row := by
  unfold Spotless storedTaskReport at hclean ⊢
  rwa [h.kind, h.coverage] at hclean

/-- Such a row with another attempt, which begins no further than the resume point. -/
theorem ItemSound.rewrite {s : ActiveScan P π} {item : WorkItem P π}
    (h : ItemSound behind finished s item) {row : ScanTask ℕ (CursorProposal P)}
    (hrow : SameWork item.row row) {attempt : Option (WorkAttempt P)}
    (hattempt : attempt = item.attempt ∨ ∀ a ∈ attempt, a.read = row.checkpoint.getD 0 ∧
      ∀ c ∈ a.positions, Vouched behind finished c ∧
        c.sourceConfigurationVersion = s.row.sourceConfigurationVersion) :
    ItemSound behind finished s { item with row, attempt } := by
  have hdurable : Spotless row → ∀ x ∈ item.content.pieces.take (row.checkpoint.getD 0),
      s.Logged item.content.scope x := by
    intro hclean x hx
    rcases hrow.checkpoint with hsame | hnone
    · rw [hsame] at hx
      exact h.durable (hrow.spotless hclean) x hx
    · rw [hnone] at hx
      simp at hx
  refine ⟨?_, hdurable, ?_, ?_, ?_, ?_⟩
  · intro hzero
    obtain ⟨hnone, hread⟩ := h.untouched (hrow.sequence ▸ hzero)
    have hnone' : row.checkpoint = none := by
      rcases hrow.checkpoint with hsame | hnone'
      · exact hsame.trans hnone
      · exact hnone'
    refine ⟨hnone', ?_⟩
    rcases hattempt with rfl | hnew
    · exact hread
    · intro a ha
      rw [(hnew a ha).1, hnone']
      rfl
  · intro a ha hclean
    rcases hattempt with rfl | hnew
    · exact h.read a ha (hrow.spotless hclean)
    · rw [(hnew a ha).1]
      exact hdurable hclean
  · intro hdone hclean
    exact h.done (hrow.status hdone) (hrow.spotless hclean)
  · intro p hp
    exact h.proposed p (hrow.proposal ▸ hp)
  · intro a ha
    rcases hattempt with rfl | hnew
    · exact h.given a ha
    · exact (hnew a ha).2

theorem ActiveSound.put {s : ActiveScan P π} (hs : ActiveSound behind finished s) {i : ℕ}
    {item item' : WorkItem P π} (hi : s.items[i]? = some item)
    (hcontent : item'.content = item.content) (hitem : ItemSound behind finished s item') :
    ActiveSound behind finished (s.put i item') where
  onePack := hs.onePack
  basis := hs.basis
  items := by
    intro x hx
    have hg := ActiveScan.grows_put hi hcontent
    rcases List.mem_or_eq_of_mem_set hx with hold | rfl
    · exact (hs.items x hold).mono hg
    · exact hitem.mono hg

section Work
variable {s : ActiveScan P π} {item : WorkItem P π} {a : WorkAttempt P} {i : ℕ}
variable {api : ApiState κ ℕ (CursorProposal P)}

/-- What a scan and its items become when work of one pack is taken. -/
theorem ActiveSound.taken {s' : ActiveScan P π} (hs : ActiveSound behind finished s)
    (hg : s.Grows s') (hpack : s'.row.rulepackVersion = some a.pack)
    (hsame : s.SamePack a) (hgiven : ∀ c ∈ a.positions, Vouched behind finished c ∧
      c.sourceConfigurationVersion = s.row.sourceConfigurationVersion)
    (hinspected : ∀ e ∈ s'.inspected, e ∈ s.inspected ∨ e.pack = a.pack)
    (hbuilt : ∀ c ∈ s'.builtOn, c ∈ s.builtOn ++ a.positions)
    (hitems : ∀ x ∈ s'.items, x ∈ s.items ∨ ItemSound behind finished s' x) :
    ActiveSound behind finished s' where
  onePack := by
    intro e he
    rw [hpack]
    rcases hinspected e he with hold | hnew
    · rw [← hsame.1 e.pack (hs.onePack e hold)]
    · rw [hnew]
  basis := by
    intro c hc
    have hmem := hbuilt c hc
    have hversion : ∀ v ∈ s'.row.rulepackVersion, c.rulepackVersion = some v := by
      intro v hv
      rw [hpack] at hv
      rw [← Option.some.inj hv]
      exact hsame.2 c hmem
    rw [hg.configuration]
    rcases List.mem_append.1 hmem with hold | hnew
    · exact ⟨(hs.basis c hold).1, (hs.basis c hold).2.1, hversion⟩
    · exact ⟨(hgiven c hnew).1, (hgiven c hnew).2, hversion⟩
  items := by
    intro x hx
    rcases hitems x hx with hold | hnew
    · exact (hs.items x hold).mono hg
    · exact hnew

/-- A batch moves the resume point over pieces the pack was shown. -/
theorem ItemSound.batch {s' : ActiveScan P π} (h : ItemSound behind finished s item)
    (ha : item.attempt = some a) {body : ProgressSubmission κ ℕ} {seen : List π}
    {engine : EngineId} {db₀ : ApiState κ ℕ (CursorProposal P)} (hrow : db₀.db.task = item.row)
    (ht : BatchTaken db₀ api engine body) (hg : s.Grows s')
    (hshown : ActiveScan.shown item a seen ⊆ s'.inspected) (hsome : body.coverage.isSome)
    (hhonest : ∀ c ∈ body.coverage, c.phase = item.row.kind ∧
      (c.Clean → ∀ x ∈ (item.content.pieces.take body.checkpoint).drop a.read, x ∈ seen)) :
    ItemSound behind finished s'
      { item with row := api.db.task, attempt := some { a with read := body.checkpoint } } := by
  obtain ⟨coverage, hcov, htask⟩ := ht.task
  rw [hrow] at htask hcov
  have hspotless : Spotless api.db.task →
      ∀ x ∈ item.content.pieces.take body.checkpoint, s'.Logged item.content.scope x := by
    intro hclean x hx
    rcases hcov with ⟨hnone, -⟩ | ⟨delta, merged, hdelta, rfl, hmerge⟩
    · rw [hnone] at hsome
      cases hsome
    · obtain ⟨hphase, hseen⟩ := hhonest _ hdelta
      have hstored : storedTaskReport api.db.task = some merged := by
        apply storedTaskReport_of_phase
        · rw [htask]
        · rw [htask]
          exact (mergeTaskReport_phase hmerge).trans hphase
      obtain ⟨hd, hold⟩ := clean_of_merge hmerge (hclean merged hstored)
      -- the stretch splits where the attempt's accepted work ends
      rw [← List.take_append_drop a.read (item.content.pieces.take body.checkpoint)] at hx
      rcases List.mem_append.1 hx with hx | hx
      · rw [List.take_take] at hx
        have hread := h.read a ha hold x (List.take_subset_take_left _ (min_le_left _ _) hx)
        exact hread.mono hg
      · exact ActiveScan.logged_shown hshown (hseen hd x hx)
  have hseq : api.db.task.checkpointSequence ≠ 0 := by
    have hnext := ht.sequence
    rw [htask]
    change body.sequence ≠ 0
    omega
  refine ⟨fun hzero => absurd hzero hseq, ?_, ?_, ?_, ?_, ?_⟩
  · intro hclean x hx
    rw [htask] at hx
    exact hspotless hclean x hx
  · intro a' ha' hclean
    obtain rfl := Option.some.inj ha'
    exact hspotless hclean
  · intro hdone
    rw [htask] at hdone
    have hleased := ht.leased
    rw [hrow] at hleased
    exact absurd hdone (ApiState.leased_ne hleased).2
  · intro p hp
    rw [htask] at hp
    exact (h.proposed p hp).mono hg
  · intro a' ha' c hc
    obtain rfl := Option.some.inj ha'
    rw [hg.configuration]
    exact h.given a ha c hc

theorem ResultsTaken.stored {body : ResultsSubmission κ (CursorProposal P)} {engine : EngineId}
    {db₀ : ApiState κ ℕ (CursorProposal P)} (ht : ResultsTaken db₀ api engine body)
    (hsome : body.coverage.isSome) :
    ∃ delta r : TaskCoverageReport,
      body.coverage = some delta.payload ∧ storedTaskReport api.db.task = some r ∧
      (r.payload.Clean → delta.payload.Clean ∧
        (db₀.db.task.checkpointSequence ≠ 0 → Spotless db₀.db.task)) ∧
      api.db.task.status = (effectiveOutcome body body.counts (some r)).1 ∧
      api.db.task.checkpoint = db₀.db.task.checkpoint ∧
      api.db.task.checkpointSequence = db₀.db.task.checkpointSequence ∧
      api.db.task.cursorProposal = (body.cursor <|> db₀.db.task.cursorProposal) := by
  obtain ⟨delta, merged, hdelta, hmerged, htask⟩ := ht.task
  cases delta with
  | none =>
      rw [hdelta] at hsome
      cases hsome
  | some delta =>
      have hphase : delta.payload.phase = db₀.db.task.kind :=
        ApiState.resultsTaken_phase ht _ hdelta
      have hreport : ∃ r, merged = some r ∧ r.payload.phase = delta.payload.phase ∧
          (r.payload.Clean → delta.payload.Clean ∧
            (db₀.db.task.checkpointSequence ≠ 0 → Spotless db₀.db.task)) := by
        unfold mergedCoverage at hmerged
        split_ifs at hmerged with hpos
        · obtain ⟨r, hr, rfl⟩ := Option.map_eq_some_iff.1 hmerged
          refine ⟨r, rfl, mergeTaskReport_phase hr, fun hclean => ?_⟩
          obtain ⟨hd, hold⟩ := clean_of_merge hr hclean
          exact ⟨hd, fun _ => hold⟩
        · obtain rfl := Option.some.inj hmerged
          refine ⟨delta, rfl, rfl, fun hclean => ⟨hclean, fun hne => ?_⟩⟩
          have hseq := ht.sequence
          omega
      obtain ⟨r, rfl, hrphase, hclean⟩ := hreport
      refine ⟨delta, r, hdelta, ?_, hclean, ?_, ?_, ?_, ?_⟩
      · apply storedTaskReport_of_phase
        · rw [htask]
          rfl
        · rw [htask]
          exact hrphase.trans hphase
      all_goals rw [htask]; rfl

/-- A report that completes a task was sent after the rest of the spec was shown. -/
theorem ItemSound.results {s' : ActiveScan P π} (h : ItemSound behind finished s item)
    (ha : item.attempt = some a) {body : ResultsSubmission κ (CursorProposal P)}
    {seen : List π} {engine : EngineId} {db₀ : ApiState κ ℕ (CursorProposal P)}
    (hrow : db₀.db.task = item.row) (ht : ResultsTaken db₀ api engine body) (hg : s.Grows s')
    (hshown : ActiveScan.shown item a seen ⊆ s'.inspected) (hsome : body.coverage.isSome)
    (hhonest : body.status = .completed → ∀ c ∈ body.coverage, c.Clean →
      ∀ x ∈ item.content.pieces.drop a.read, x ∈ seen)
    (hlicensed : ∀ p ∈ body.cursor, s.Licenses behind p) :
    ItemSound behind finished s' { item with row := api.db.task, attempt := none } := by
  obtain ⟨delta, r, hdelta, hstored, hclean, hstatus, hcheckpoint, hseq, hproposal⟩ :=
    ht.stored hsome
  rw [hrow] at hclean hcheckpoint hseq hproposal
  have hspotless : Spotless api.db.task → r.payload.Clean := fun hs => hs r hstored
  have hidle : ∀ a' : WorkAttempt P, a' ∉ (none : Option (WorkAttempt P)) := by
    intro a' ha'
    cases ha'
  refine ⟨?_, ?_, fun a' ha' => absurd ha' (hidle a'), ?_, ?_, fun a' ha' => absurd ha' (hidle a')⟩
  · intro hzero
    refine ⟨?_, fun a' ha' => absurd ha' (hidle a')⟩
    change api.db.task.checkpoint = none
    rw [hcheckpoint]
    exact (h.untouched (hseq ▸ hzero)).1
  · intro hs x hx
    rw [hcheckpoint] at hx
    by_cases hzero : item.row.checkpointSequence = 0
    · rw [(h.untouched hzero).1] at hx
      simp at hx
    · exact (h.durable ((hclean (hspotless hs)).2 hzero) x hx).mono hg
  · intro hdone hs x hx
    have hbody : body.status = .completed := by
      change api.db.task.status = .completed at hdone
      rw [hstatus] at hdone
      rcases effectiveOutcome_status body body.counts (some r) with hf | hf <;> rw [hf] at hdone
      · cases hdone
      · exact hdone
    obtain ⟨hd, hold⟩ := hclean (hspotless hs)
    rw [← List.take_append_drop a.read item.content.pieces] at hx
    rcases List.mem_append.1 hx with hx | hx
    · by_cases hzero : item.row.checkpointSequence = 0
      · rw [(h.untouched hzero).2 a ha] at hx
        simp at hx
      · exact (h.read a ha (hold hzero) x hx).mono hg
    · exact ActiveScan.logged_shown hshown (hhonest hbody _ hdelta hd x hx)
  · intro p hp
    change api.db.task.cursorProposal = some p at hp
    rw [hproposal] at hp
    cases hcursor : body.cursor with
    | some p' =>
        rw [hcursor] at hp
        obtain rfl : p' = p := Option.some.inj hp
        exact (hlicensed p' hcursor).mono hg
    | none =>
        rw [hcursor] at hp
        exact (h.proposed p hp).mono hg

end Work

theorem itemSound_fresh {s : ActiveScan P π} (id : ℕ) (kind : ScanTaskKind)
    (content : SpecContent π) :
    ItemSound behind finished s { row := { id, kind }, content } := by
  refine ⟨fun _ => ⟨rfl, ?_⟩, ?_, ?_, ?_, ?_, ?_⟩
  · intro a ha
    cases ha
  · intro _ x hx
    simp at hx
  · intro a ha
    cases ha
  · intro hdone
    cases hdone
  · intro p hp
    cases hp
  · intro a ha
    cases ha

theorem ActiveSound.lease {s : ActiveScan P π} {cursors : List (SourceCursor P)}
    (hs : ActiveSound behind finished s)
    (hcur : ∀ c ∈ cursors, Vouched behind finished c ∧ (c.Live → s.row.mode = .incremental →
      c.sourceConfigurationVersion = s.row.sourceConfigurationVersion))
    {i : ℕ} {item : WorkItem P π} (hi : s.items[i]? = some item) {engine : EngineId}
    {pack : String} {claimed : Db ℕ (CursorProposal P)}
    (hclaim : claimTask (s.db item) engine = some claimed) :
    ActiveSound behind finished (s.put i { item with
      row := (leasedDb claimed).task
      attempt := some (s.attemptOf cursors (leasedDb claimed).task engine pack) }) := by
  unfold claimTask at hclaim
  split_ifs at hclaim
  obtain rfl := Option.some.inj hclaim
  apply hs.put hi
  · rfl
  · apply (hs.items item (List.mem_of_getElem? hi)).rewrite
    · unfold leasedDb
      split_ifs
      · exact ⟨rfl, rfl, rfl, Or.inr rfl, rfl, fun hdone => by cases hdone⟩
      · exact ⟨rfl, rfl, rfl, Or.inl rfl, rfl, fun hdone => by cases hdone⟩
    · right
      intro a ha
      obtain rfl := Option.some.inj ha
      refine ⟨rfl, ?_⟩
      intro c hc
      simp only [ActiveScan.attemptOf, positionsForScan] at hc
      split_ifs at hc with hkind hmode
      · cases hc
      · obtain ⟨hc, hlive⟩ := mem_activeCursors.1 hc
        refine ⟨(hcur c hc).1, (hcur c hc).2 hlive ?_⟩
        cases hm : s.row.mode
        · exact absurd hm hmode
        · rfl
      · cases hc

theorem ActiveSound.step {s s' : ActiveScan P π} {cursors : List (SourceCursor P)}
    (hs : ActiveSound behind finished s)
    (hcur : ∀ c ∈ cursors, Vouched behind finished c ∧ (c.Live → s.row.mode = .incremental →
      c.sourceConfigurationVersion = s.row.sourceConfigurationVersion))
    {i : ℕ} {item : WorkItem P π} (hi : s.items[i]? = some item) {action : TaskAction κ P π}
    (hhonest : ∀ a ∈ item.attempt, s.Honest behind item a action)
    (hpack : ∀ a ∈ item.attempt, s.Accepts item a action → s.SamePack a)
    (h : s.step cursors i item action = some s') :
    ActiveSound behind finished s' ∧ s.Grows s' := by
  have hitem := hs.items item (List.mem_of_getElem? hi)
  cases action with
  | lease engine pack =>
      simp only [ActiveScan.step] at h
      split at h
      · next claimed hidle hclaim =>
        obtain rfl := Option.some.inj h
        exact ⟨hs.lease hcur hi hclaim, ActiveScan.grows_put hi rfl⟩
      · cases h
  | die =>
      obtain rfl := Option.some.inj h
      refine ⟨hs.put hi rfl (hitem.rewrite ⟨rfl, rfl, rfl, Or.inl rfl, rfl, id⟩ (Or.inr ?_)),
        ActiveScan.grows_put hi rfl⟩
      intro a ha
      cases ha
  | renew =>
      obtain rfl := Option.some.inj h
      refine ⟨hs.put hi rfl (hitem.rewrite ?_ (Or.inl rfl)), ActiveScan.grows_put hi rfl⟩
      unfold renewLease
      split_ifs
      · exact ⟨rfl, rfl, rfl, Or.inl rfl, rfl, fun hdone => by cases hdone⟩
      · exact ⟨rfl, rfl, rfl, Or.inl rfl, rfl, id⟩
  | reclaim =>
      obtain rfl := Option.some.inj h
      refine ⟨hs.put hi rfl (hitem.rewrite ?_ (Or.inl rfl)), ActiveScan.grows_put hi rfl⟩
      unfold reclaimExpiredLease
      split_ifs
      · exact ⟨rfl, rfl, rfl, Or.inl rfl, rfl, fun hdone => by cases hdone⟩
      · exact ⟨rfl, rfl, rfl, Or.inl rfl, rfl, id⟩
  | progress body seen =>
      obtain ⟨a, ha, rfl⟩ := Option.map_eq_some_iff.1 h
      obtain ⟨hsome, hcover⟩ := hhonest a ha
      rcases submitProgress_cases { db := s.db item } a.engine
        { body with rulepackVersion := some a.pack } with ⟨hrefused, -⟩ | ⟨htaken, -⟩
      · have hempty : (s.afterProgress item a body).batches.isEmpty := by
          unfold ActiveScan.afterProgress
          rw [hrefused]
          rfl
        simp only [hempty, if_true]
        exact ⟨hs, .refl s⟩
      · have hfull : (s.afterProgress item a body).batches.isEmpty = false := by
          unfold ActiveScan.afterProgress
          rw [htaken.batches]
          rfl
        simp only [hfull, Bool.false_eq_true, if_false]
        have hrow : (s.afterProgress item a body).db.scan =
            { s.row.toScan with
              counts := s.row.counts + body.counts
              rulepackVersion := some a.pack } := htaken.scan
        have hg : s.Grows (s.takeBatch i item a (s.afterProgress item a body)
            body.checkpoint seen) := by
          refine ⟨?_, rfl, List.subset_append_left _ _, List.Subset.refl _,
            ActiveScan.exists_content_set hi rfl⟩
          simp only [ActiveScan.takeBatch, hrow]
        refine ⟨hs.taken hg ?_ (hpack a ha ?_) (hitem.given a ha) ?_ ?_ ?_, hg⟩
        · simp only [ActiveScan.takeBatch, hrow]
        · simp [ActiveScan.Accepts, hfull]
        · intro e he
          rcases List.mem_append.1 he with hold | hnew
          · exact Or.inl hold
          · obtain ⟨x, -, rfl⟩ := List.mem_map.1 hnew
            exact Or.inr rfl
        · intro c hc
          exact List.mem_append_left _ hc
        · intro x hx
          rcases List.mem_or_eq_of_mem_set hx with hold | rfl
          · exact Or.inl hold
          · have hbatch := hitem.batch ha rfl htaken hg (List.subset_append_right _ _) hsome hcover
            exact Or.inr hbatch
  | results body seen specs =>
      obtain ⟨a, ha, h⟩ := Option.bind_eq_some_iff.1 h
      obtain ⟨hsome, hcover, hlicensed⟩ := hhonest a ha
      simp only at h
      split_ifs at h with hspecs hempty
      · obtain rfl := Option.some.inj h
        exact ⟨hs, .refl s⟩
      · obtain rfl := Option.some.inj h
        rcases submitResults_cases { db := s.db item } a.engine
          { body with rulepackVersion := some a.pack } with hrefused | htaken
        · exfalso
          apply hempty
          unfold ActiveScan.afterResults
          rw [hrefused]
          rfl
        have hrow : (s.afterResults item a body).db.scan =
            { s.row.toScan with
              counts := s.row.counts + body.counts
              rulepackVersion := some a.pack } := htaken.scan
        have hg : s.Grows (s.takeResults i item a (s.afterResults item a body) seen specs) := by
          have hset : ∀ x ∈ s.items, ∃ y ∈ s.items.set i
              { item with row := (s.afterResults item a body).db.task, attempt := none },
              y.content = x.content := ActiveScan.exists_content_set hi rfl
          refine ⟨?_, rfl, List.subset_append_left _ _, List.subset_append_left _ _, ?_⟩
          · simp only [ActiveScan.takeResults, hrow]
          · intro x hx
            obtain ⟨y, hy, hcontent⟩ := hset x hx
            exact ⟨y, List.mem_append_left _ hy, hcontent⟩
        refine ⟨hs.taken hg ?_ (hpack a ha ?_) (hitem.given a ha) ?_ ?_ ?_, hg⟩
        · simp only [ActiveScan.takeResults, hrow]
        · simp [ActiveScan.Accepts, hempty]
        · intro e he
          rcases List.mem_append.1 he with hold | hnew
          · exact Or.inl hold
          · obtain ⟨x, -, rfl⟩ := List.mem_map.1 hnew
            exact Or.inr rfl
        · intro c hc
          exact hc
        · intro x hx
          rcases List.mem_append.1 hx with hx | hx
          · rcases List.mem_or_eq_of_mem_set hx with hold | rfl
            · exact Or.inl hold
            · have hreport := hitem.results ha rfl htaken hg (List.subset_append_right _ _) hsome
                hcover hlicensed
              exact Or.inr hreport
          · right
            simp only [ActiveScan.fetchTasks] at hx
            split_ifs at hx
            · obtain ⟨j, hj, rfl⟩ := List.mem_mapIdx.1 hx
              exact itemSound_fresh _ _ _
            · cases hx

theorem Covered.mono {scope v : String} {x : π} {k : ℕ} (h : Covered finished scope v x k)
    {finished' : List (FinishedScan P π)} (hsub : finished ⊆ finished') :
    Covered finished' scope v x k := by
  induction h with
  | here hr hc he => exact .here (hsub hr) hc he
  | earlier hr hc hbuilt hscope _ ih => exact .earlier (hsub hr) hc hbuilt hscope ih

theorem Vouched.mono {c : SourceCursor P} (h : Vouched behind finished c)
    {finished' : List (FinishedScan P π)} (hsub : finished ⊆ finished') :
    Vouched behind finished' c :=
  fun v hv x hx => (h v hv x hx).mono hsub

theorem Vouched.sameClaim {c old : SourceCursor P} (h : Vouched behind finished old)
    (hsame : c.SameClaim old) : Vouched behind finished c := by
  unfold Vouched
  rw [hsame.rulepackVersion, hsame.sourceConfigurationVersion, hsame.scope, hsame.position,
    hsame.mintedByScanId]
  exact h

namespace SourceWorld

structure Watermarked (behind : Option ℕ → String → CursorPosition P → List π)
    (w : SourceWorld P π) : Prop where
  rows : ∀ c ∈ w.cursors, Vouched behind w.finished c
  current : ∀ s ∈ w.active, s.row.mode = .incremental → ∀ c ∈ w.cursors, c.Live →
    c.sourceConfigurationVersion = s.row.sourceConfigurationVersion
  active : ∀ s ∈ w.active, ActiveSound behind w.finished s

theorem Watermarked.retire {w : SourceWorld P π} (hw : w.Watermarked behind)
    {cursors : List (SourceCursor P)} (hcursors : cursors = w.cursors ∨
      ∃ reason now, cursors = invalidate w.cursors reason now) :
    ({ w with cursors } : SourceWorld P π).Watermarked behind := by
  rcases hcursors with rfl | ⟨reason, now, rfl⟩
  · exact hw
  · refine ⟨?_, ?_, hw.active⟩
    · intro c hc
      obtain ⟨old, hold, -, hsame⟩ := mem_invalidate hc
      exact (hw.rows old hold).sameClaim hsame
    · intro s hs hmode c hc hlive
      obtain ⟨old, hold, hsame, -⟩ := mem_invalidate hc
      obtain rfl := hsame hlive
      exact hw.current s hs hmode c hold hlive

theorem plan_retires (w : SourceWorld P π) (requested : ScanMode) (pepperRotating : Bool) :
    (w.plan requested pepperRotating).1 = w.cursors ∨
      ∃ reason now, (w.plan requested pepperRotating).1 = invalidate w.cursors reason now := by
  rcases planMode_cursors w.cursors w.source requested (fleetRulepackVersion w.engines)
    pepperRotating w.clock with h | ⟨reason, h⟩
  · exact Or.inl h
  · exact Or.inr ⟨reason, w.clock, h⟩

/-- The live rows under an incremental plan are those of the source as it is. -/
theorem plan_current {w : SourceWorld P π} {requested : ScanMode} {pepperRotating : Bool}
    (hmode : (w.plan requested pepperRotating).2.mode = .incremental) {c : SourceCursor P}
    (hc : c ∈ (w.plan requested pepperRotating).1) (hlive : c.Live) :
    c.sourceConfigurationVersion = some w.source.updatedAt := by
  have hold : c ∈ activeCursors w.cursors := by
    rcases w.plan_retires requested pepperRotating with h | ⟨reason, now, h⟩
    · exact mem_activeCursors.2 ⟨h ▸ hc, hlive⟩
    · rw [h] at hc
      obtain ⟨old, hold, hsame, -⟩ := mem_invalidate hc
      obtain rfl := hsame hlive
      exact mem_activeCursors.2 ⟨hold, hlive⟩
  cases requested with
  | full =>
      exfalso
      unfold plan planMode at hmode
      simp at hmode
  | incremental =>
      have hall := ((planMode_incremental_iff _ _ _ _ _).1 hmode).2
      exact (invalidationFor_eq_none.1 (hall c hold)).2.1

theorem Watermarked.launched {w : SourceWorld P π} (hw : w.Watermarked behind)
    (requested : ScanMode) (pepperRotating : Bool) :
    ({ w with
        cursors := (w.plan requested pepperRotating).1
        active := some (w.launched requested (w.plan requested pepperRotating).2) } :
      SourceWorld P π).Watermarked behind where
  rows := (hw.retire (w.plan_retires requested pepperRotating)).rows
  current := by
    intro s hs hmode c hc hlive
    obtain rfl := Option.some.inj hs
    exact plan_current hmode hc hlive
  active := by
    intro s hs
    obtain rfl := Option.some.inj hs
    refine ⟨?_, ?_, ?_⟩
    · intro e he
      cases he
    · intro c hc
      cases hc
    · intro item hitem
      obtain rfl := List.mem_singleton.1 hitem
      exact itemSound_fresh _ _ _

theorem Watermarked.ended {w : SourceWorld P π} (hw : w.Watermarked behind)
    (r : FinishedScan P π) :
    ({ w with active := none, finished := w.finished ++ [r] } :
      SourceWorld P π).Watermarked behind where
  rows c hc := (hw.rows c hc).mono (List.subset_append_left _ _)
  current := by
    intro s hs
    cases hs
  active := by
    intro s hs
    cases hs

/-- The gate is open only when every task is completed with a spotless report. -/
theorem spotless_of_complete {s : ActiveScan P π} (h : s.Complete) {item : WorkItem P π}
    (hitem : item ∈ s.items) : item.row.status = .completed ∧ Spotless item.row := by
  have hfinal := final_of_complete h
  unfold ActiveScan.Complete at h
  rw [Bool.and_eq_true] at h
  have hrow : item.row ∈ s.rows := List.mem_map_of_mem hitem
  constructor
  · unfold ActiveScan.final finalStatus at hfinal
    split_ifs at hfinal with hcancelled hall
    have hstatus := List.all_eq_true.1 hall item.row.status (List.mem_map_of_mem hrow)
    exact of_decide_eq_true hstatus
  · obtain ⟨r, hr, hclean⟩ := spotless_of_coverageComplete h.2 hrow
    intro r' hr'
    rw [hr] at hr'
    obtain rfl := Option.some.inj hr'
    exact hclean

/-- A row a complete scan stores is vouched for by that scan and those it built on. -/
theorem vouched_mint {w : SourceWorld P π} {s : ActiveScan P π} (hw : w.Watermarked behind)
    (hs : w.active = some s) (hcomplete : s.Complete) {proposal : CursorProposal P} {position : P}
    (hposition : proposal.position = some position) (hlicensed : s.Licenses behind proposal) :
    Vouched behind (w.finalize s).finished
      (mint s.row w.clock proposal.scope proposal.version position) := by
  intro v hv x hx
  have hactive := hw.active s hs
  have hlast : s.finished s.final s.Complete w.clock ∈ (w.finalize s).finished :=
    List.mem_append_right _ (List.mem_singleton.2 rfl)
  rcases hlicensed position hposition x hx with ⟨c, hc, hscope, hx⟩ | ⟨item, hitem, hscope, hx⟩
  · obtain ⟨hvouched, hconf, hversion⟩ := hactive.basis c hc
    have hcovered := hvouched v (hversion v hv) x (hconf ▸ hx)
    rw [hscope] at hcovered
    exact .earlier hlast hcomplete hc hscope (hcovered.mono (List.subset_append_left _ _))
  · obtain ⟨hdone, hclean⟩ := spotless_of_complete hcomplete hitem
    obtain ⟨e, he, hscope', rfl⟩ := (hactive.items item hitem).done hdone hclean x hx
    have hpack : e.pack = v := Option.some.inj ((hactive.onePack e he).symm.trans hv)
    refine .here hlast hcomplete ?_
    change ⟨proposal.scope, e.piece, v⟩ ∈ s.inspected
    rw [← hscope, ← hscope', ← hpack]
    exact he

theorem Watermarked.finalize {w : SourceWorld P π} {s : ActiveScan P π}
    (hw : w.Watermarked behind) (hs : w.active = some s) (hcomplete : s.Complete) :
    (w.finalize s).Watermarked behind where
  rows := by
    intro c hc
    simp only [SourceWorld.finalize, if_pos hcomplete] at hc
    rcases mem_commitProposals hc with hold | ⟨row, hrow, -, proposal, position, hp, hpos, rfl⟩
    · exact (hw.rows c hold).mono (List.subset_append_left _ _)
    · obtain ⟨item, hitem, rfl⟩ := List.mem_map.1 hrow
      exact vouched_mint hw hs hcomplete hpos
        (((hw.active s hs).items item hitem).proposed proposal hp)
  current := by
    intro s' hs'
    cases hs'
  active := by
    intro s' hs'
    cases hs'

theorem Watermarked.step {w w' : SourceWorld P π} (hw : w.Watermarked behind)
    {a : SourceAction κ P π} (hhonest : w.Honest behind a) (hpack : w.OnePack a)
    (h : w.step a = some w') : w'.Watermarked behind := by
  cases a with
  | tick elapsed | fleet engines =>
      obtain rfl := Option.some.inj h
      exact ⟨hw.rows, hw.current, hw.active⟩
  | edit =>
      simp only [SourceWorld.step] at h
      split_ifs at h
      obtain rfl := Option.some.inj h
      exact ⟨hw.rows, hw.current, hw.active⟩
  | dropCursors =>
      obtain rfl := Option.some.inj h
      exact hw.retire (Or.inr ⟨_, _, rfl⟩)
  | launch requested pepperRotating =>
      cases hs : w.active with
      | none =>
          rw [step_launch hs] at h
          obtain rfl := Option.some.inj h
          exact hw.launched requested pepperRotating
      | some s =>
          simp only [SourceWorld.step, hs] at h
          obtain rfl := Option.some.inj h
          rw [← hs]
          exact hw.retire (w.plan_retires requested pepperRotating)
  | task i action =>
      simp only [SourceWorld.step] at h
      cases hs : w.active with
      | none => rw [hs] at h; cases h
      | some s =>
          rw [hs] at h
          cases hi : s.items[i]? with
          | none => simp only [hi, reduceCtorEq] at h
          | some item =>
              simp only [hi] at h
              obtain ⟨s', hstep, rfl⟩ := Option.map_eq_some_iff.1 h
              have hworking : ∀ a ∈ item.attempt, (s, item, a) ∈ w.working i := by
                intro a ha
                obtain ha : item.attempt = some a := ha
                simp [working, hs, hi, ha]
              have hcur : ∀ c ∈ w.cursors, Vouched behind w.finished c ∧ (c.Live →
                  s.row.mode = .incremental →
                    c.sourceConfigurationVersion = s.row.sourceConfigurationVersion) :=
                fun c hc => ⟨hw.rows c hc, fun hlive hmode => hw.current s hs hmode c hc hlive⟩
              obtain ⟨hsound, hg⟩ := (hw.active s hs).step hcur hi
                (fun a ha => hhonest _ (hworking a ha)) (fun a ha => hpack _ (hworking a ha)) hstep
              refine ⟨hw.rows, ?_, ?_⟩
              · intro s'' hs'' hmode c hc hlive
                obtain rfl := Option.some.inj hs''
                rw [hg.configuration]
                exact hw.current s hs (hg.mode ▸ hmode) c hc hlive
              · intro s'' hs''
                obtain rfl := Option.some.inj hs''
                exact hsound
  | cancel =>
      obtain ⟨s, hs, rfl⟩ := Option.map_eq_some_iff.1 h
      exact hw.ended _
  | finalize =>
      simp only [SourceWorld.step] at h
      cases hs : w.active with
      | none => rw [hs] at h; cases h
      | some s =>
          rw [hs] at h
          simp only at h
          split_ifs at h with hsettled
          obtain rfl := Option.some.inj h
          by_cases hcomplete : s.Complete
          · exact hw.finalize hs hcomplete
          · have hended := hw.ended (s.finished s.final s.Complete w.clock)
            unfold SourceWorld.finalize
            rw [if_neg hcomplete]
            exact hended

/-- While every scan is the work of one pack, and an incremental one of the pack its
cursors name, what lies behind a live cursor was shown to the pack it names. -/
theorem live_cursor_covered {w : SourceWorld P π}
    (hw : Reachable (fun w (a : SourceAction κ P π) => w.Honest behind a ∧ w.OnePack a) w)
    {c : SourceCursor P} (hc : c ∈ activeCursors w.cursors) {v : String}
    (hv : c.rulepackVersion = some v) :
    ∀ x ∈ behind c.sourceConfigurationVersion c.scope c.position,
      Covered w.finished c.scope v x c.mintedByScanId := by
  have hsound : w.Watermarked behind := by
    clear hc
    induction hw with
    | start source =>
        refine ⟨?_, ?_, ?_⟩
        · intro c hc
          cases hc
        · intro s hs
          cases hs
        · intro s hs
          cases hs
    | step _ hguard hstep ih => exact ih.step hguard.1 hguard.2 hstep
  exact hsound.rows c (mem_activeCursors.1 hc).1 v hv

end SourceWorld

end Connector

theorem Covered.inspected {finished : List (FinishedScan P π)} {scope v : String} {x : π} {k : ℕ}
    (h : Covered finished scope v x k) : ∃ r ∈ finished, ⟨scope, x, v⟩ ∈ r.inspected := by
  induction h with
  | here hr _ he => exact ⟨_, hr, he⟩
  | earlier _ _ _ _ _ ih => exact ih

namespace SourceWorld

def revisions (_ : Option ℕ) (_ : String) (q : CursorPosition ℕ) : List ℕ :=
  List.range (q.position + 1)

/-- Two spaces read in one full scan, the second by an engine with this pack. -/
def twoSpaces (pack : String) : List (SourceAction ℕ ℕ ℕ) :=
  [.launch .full false] ++ discoverySteps 1 "1" [⟨"OPS", [0, 1]⟩, ⟨"WEB", [0]⟩] ++
    fetchSteps 1 1 "1" ⟨"OPS", [0, 1]⟩ 1 ++ fetchSteps 2 2 pack ⟨"WEB", [0]⟩ 0 ++ [.finalize]

theorem live_cursor_covered_of_one_pack :
    ∃ (w : SourceWorld ℕ ℕ) (c : SourceCursor ℕ), c ∈ activeCursors w.cursors ∧
      Covered w.finished c.scope "1" 1 c.mintedByScanId := by
  have hrun : (run (fun w (a : SourceAction ℕ ℕ ℕ) => w.Honest revisions a ∧ w.OnePack a)
      { source := { updatedAt := 0 } } (twoSpaces "1")).any (fun w =>
        (activeCursors w.cursors).any fun c => c.rulepackVersion = some "1" ∧
          c.position.position = 1) := by decide
  obtain ⟨w, hw, h⟩ := (Option.any_eq_true _ _).1 hrun
  obtain ⟨c, hc, h⟩ := List.any_eq_true.1 h
  obtain ⟨hv, hposition⟩ := of_decide_eq_true h
  refine ⟨w, c, hc, live_cursor_covered ((Reachable.start _).run hw) hc hv 1 ?_⟩
  simp [revisions, hposition]

/-- The engine that reported last stamps the cursor of a space another pack read. -/
theorem live_cursor_can_name_unseen_pack :
    ∃ (w : SourceWorld ℕ ℕ) (c : SourceCursor ℕ),
      Reachable (fun w (a : SourceAction ℕ ℕ ℕ) => w.Honest revisions a) w ∧
      c ∈ activeCursors w.cursors ∧ c.rulepackVersion = some "2" ∧
      ∃ x ∈ revisions c.sourceConfigurationVersion c.scope c.position,
        ∀ k, ¬ Covered w.finished c.scope "2" x k := by
  have hrun : (run (fun w (a : SourceAction ℕ ℕ ℕ) => w.Honest revisions a)
      { source := { updatedAt := 0 } } (twoSpaces "2")).any (fun w =>
        (activeCursors w.cursors).any fun c => c.rulepackVersion = some "2" ∧
          c.position.position = 1 ∧
          ∀ r ∈ w.finished, ⟨c.scope, 1, "2"⟩ ∉ r.inspected) := by decide
  obtain ⟨w, hw, h⟩ := (Option.any_eq_true _ _).1 hrun
  obtain ⟨c, hc, h⟩ := List.any_eq_true.1 h
  obtain ⟨hv, hposition, hunseen⟩ := of_decide_eq_true h
  refine ⟨w, c, (Reachable.start _).run hw, hc, hv, 1, by simp [revisions, hposition], ?_⟩
  intro k hcovered
  obtain ⟨r, hr, he⟩ := hcovered.inspected
  exact hunseen r hr he

end SourceWorld

end IcebergSST
