import IcebergSST.AutoResolve
import IcebergSST.Library.Machine

/-!
# Suppressions over time

The suppressions of a deployment and the findings of all its sources, as suppressions are
made, deleted and lapse, as scans report and analysts triage. Each operation is one
transaction, and they take place one after another.

Ingest, the making and the deleting of a suppression and the sweep each leave the open
findings marked as the live suppressions say. Triage asks no suppression: what an analyst
re-opens is marked only if it was before.
-/

namespace IcebergSST

structure SuppressionLife where
  clock : ℕ
  suppressions : List Suppression := []
  /-- By source. -/
  findings : ℕ → List Finding := fun _ => []

inductive SuppressionAction
  | tick (elapsed : ℕ)
  | create (s : Suppression)
  | delete (id : ℕ)
  | sweep
  | ingest (sourceId scanId : ℕ) (threshold : ℚ) (payloads : List FindingPayload)
  | triage (sourceId id : ℕ) (target : FindingState)
  | resolveUnseen (sourceId id : ℕ)

namespace SuppressionLife

def setFindings (w : SuppressionLife) (sourceId : ℕ) (rows : List Finding) : SuppressionLife :=
  { w with findings := Function.update w.findings sourceId rows }

theorem setFindings_self (w : SuppressionLife) (sourceId : ℕ) (rows : List Finding) :
    (w.setFindings sourceId rows).findings sourceId = rows := by
  unfold setFindings
  exact Function.update_self sourceId rows w.findings

theorem setFindings_of_ne (w : SuppressionLife) {sourceId sourceId' : ℕ} (rows : List Finding)
    (h : sourceId' ≠ sourceId) :
    (w.setFindings sourceId rows).findings sourceId' = w.findings sourceId' := by
  unfold setFindings
  exact Function.update_of_ne h rows w.findings

def step (w : SuppressionLife) : SuppressionAction → Option SuppressionLife
  | .tick elapsed => some { w with clock := w.clock + elapsed }
  | .create s =>
      if s.Expired w.clock = false ∧ ∀ t ∈ w.suppressions, t.id ≠ s.id then
        some { w with
          suppressions := w.suppressions ++ [s]
          findings := fun sourceId => applyToExisting s sourceId w.clock (w.findings sourceId) }
      else none
  | .delete id =>
      (w.suppressions.find? (·.id = id)).map fun s =>
        { w with
          suppressions := w.suppressions.filter (·.id ≠ id)
          findings := fun sourceId =>
            releaseCoveredBy w.suppressions s sourceId w.clock (w.findings sourceId) }
  | .sweep =>
      some { w with
        findings := fun sourceId =>
          releaseLapsed w.suppressions sourceId w.clock (w.findings sourceId) }
  | .ingest sourceId scanId threshold payloads =>
      some (w.setFindings sourceId (ingestFindings w.suppressions sourceId scanId w.clock threshold
        (w.findings sourceId) payloads))
  | .triage sourceId id target =>
      some (w.setFindings sourceId ((w.findings sourceId).map fun f =>
        if f.id = id then triageTo target f else f))
  | .resolveUnseen sourceId id =>
      some (w.setFindings sourceId ((w.findings sourceId).map (autoResolve id)))

def IsEmpty (w : SuppressionLife) : Prop :=
  w.suppressions = [] ∧ ∀ sourceId, w.findings sourceId = []

/-- The rules a finding of a source is held against. -/
def liveRules (w : SuppressionLife) (sourceId : ℕ) : List SuppressionRule :=
  applicableSuppressions w.suppressions sourceId w.clock

/-- Every open finding that a live and applicable suppression matches is marked. -/
def Consistent (w : SuppressionLife) : Prop :=
  ∀ sourceId, ∀ f ∈ w.findings sourceId, f.state = .opened →
    ∀ rule ∈ w.liveRules sourceId, rule.matches f.sighting → f.suppressedAt.isSome

/-- Every finding that is marked names a live suppression that applies to its source. -/
def Swept (w : SuppressionLife) : Prop :=
  ∀ sourceId, ∀ f ∈ w.findings sourceId, f.suppressedAt.isSome →
    ∃ s ∈ w.suppressions, f.suppressedById = some s.id ∧ s.Concerns sourceId ∧
      s.Expired w.clock = false

/-- What an analyst re-opens is marked, or no live and applicable suppression matches it. -/
def Noticed (w : SuppressionLife) : SuppressionAction → Prop
  | .triage sourceId id .opened => ∀ f ∈ w.findings sourceId, f.id = id → f.state ≠ .opened →
      f.suppressedAt.isSome ∨ ∀ rule ∈ w.liveRules sourceId, ¬ rule.matches f.sighting
  | _ => True

end SuppressionLife

/-- A fingerprint covers the rule of its finding: `ruleOf` reads it back. Both identities
of a payload are the engine's, computed for the rule the payload names. -/
structure FindingPayload.NamesRule (ruleOf : String → String) (p : FindingPayload) : Prop where
  fingerprint : ruleOf p.fingerprint = p.ruleId
  previous : ∀ previous ∈ p.previousFingerprint, ruleOf previous = p.ruleId

def SuppressionAction.FromEngine (ruleOf : String → String) : SuppressionAction → Prop
  | .ingest _ _ _ payloads => ∀ p ∈ payloads, p.NamesRule ruleOf
  | _ => True

section Rows

variable {ruleOf : String → String} {suppressions : List Suppression} {sourceId now : ℕ}
  {f : Finding}

theorem mem_applicableSuppressions {rule : SuppressionRule} :
    rule ∈ applicableSuppressions suppressions sourceId now ↔
      ∃ s ∈ suppressions, s.Concerns sourceId ∧ s.Expired now = false ∧
        s.toSuppressionRule = rule := by
  simp [applicableSuppressions, and_assoc]

/-- A row under the suppressions of its deployment at an instant. -/
structure Finding.Standing (ruleOf : String → String) (suppressions : List Suppression)
    (sourceId now : ℕ) (f : Finding) : Prop where
  marked : f.state = .opened → ∀ rule ∈ applicableSuppressions suppressions sourceId now,
    rule.matches f.sighting → f.suppressedAt.isSome
  named : f.suppressedAt.isSome →
    ∃ s ∈ suppressions, f.suppressedById = some s.id ∧ s.Concerns sourceId
  rule : ruleOf f.fingerprint = f.ruleId

open Finding (Standing)

/-- A suppression that lapses takes no mark away that another one asks for. -/
theorem Finding.Standing.later (hf : Standing ruleOf suppressions sourceId now f) (elapsed : ℕ) :
    Standing ruleOf suppressions sourceId (now + elapsed) f := by
  refine ⟨?_, hf.named, hf.rule⟩
  intro hopen rule hrule
  apply hf.marked hopen rule
  obtain ⟨s, hs, hconcerns, hlive, heq⟩ := mem_applicableSuppressions.1 hrule
  refine mem_applicableSuppressions.2 ⟨s, hs, hconcerns, ?_, heq⟩
  unfold Suppression.Expired at hlive ⊢
  cases hexpires : s.expiresAt with
  | none => rfl
  | some t =>
      rw [hexpires] at hlive
      simp only [Option.any_some, decide_eq_false_iff_not] at hlive ⊢
      omega

theorem standing_applyRule (hrule : ruleOf f.fingerprint = f.ruleId) :
    Standing ruleOf suppressions sourceId now
      (applyRule f (firstMatch (applicableSuppressions suppressions sourceId now) f.sighting)
        now) := by
  cases hfirst : firstMatch (applicableSuppressions suppressions sourceId now) f.sighting with
  | some rule =>
      obtain ⟨s, hs, hconcerns, -, heq⟩ :=
        mem_applicableSuppressions.1 (List.mem_of_find?_eq_some hfirst)
      have hmarked : (suppress f rule now).suppressedAt.isSome := by
        unfold suppress
        cases f.suppressedAt <;> rfl
      refine ⟨fun _ _ _ _ => hmarked, ?_, hrule⟩
      intro _
      exact ⟨s, hs, by rw [← heq]; rfl, hconcerns⟩
  | none =>
      have hkeeps : (release f).sighting = f.sighting := by
        unfold release Finding.sighting
        split_ifs <;> rfl
      constructor
      · intro _ rule hmem hmatches
        change rule.matches (release f).sighting = true at hmatches
        rw [hkeeps] at hmatches
        exact absurd hmatches (List.find?_eq_none.1 hfirst rule hmem)
      · intro hsome
        change (release f).suppressedAt.isSome = true at hsome
        rw [Triage.release_suppressedAt] at hsome
        cases hsome
      · change ruleOf (release f).fingerprint = (release f).ruleId
        unfold release
        split_ifs <;> exact hrule

/-- Handing over: the row keeps its mark where another live rule covers it. -/
theorem standing_handOver
    (hmarked : f.state = .opened → ∀ rule ∈ applicableSuppressions suppressions sourceId now,
      rule.matches f.sighting → f.suppressedAt.isSome)
    (hrule : ruleOf f.fingerprint = f.ruleId) :
    Standing ruleOf suppressions sourceId now
      (handOver (applicableSuppressions suppressions sourceId now) f) := by
  unfold handOver
  cases hfirst : firstMatch (applicableSuppressions suppressions sourceId now) f.sighting with
  | some rule =>
      obtain ⟨s, hs, hconcerns, -, heq⟩ :=
        mem_applicableSuppressions.1 (List.mem_of_find?_eq_some hfirst)
      exact ⟨hmarked, fun _ => ⟨s, hs, by rw [← heq], hconcerns⟩, hrule⟩
  | none =>
      have h : Standing ruleOf suppressions sourceId now (applyRule f (firstMatch
          (applicableSuppressions suppressions sourceId now) f.sighting) now) :=
        standing_applyRule hrule
      rw [hfirst] at h
      exact h

theorem Finding.Standing.covered (hf : Standing ruleOf suppressions sourceId now f)
    (s : Suppression) : Standing ruleOf (suppressions ++ [s]) sourceId now
      (if s.Covers sourceId f then suppress f s.toSuppressionRule now else f) := by
  by_cases hcovers : s.Covers sourceId f
  · rw [if_pos hcovers]
    have hmarked : (suppress f s.toSuppressionRule now).suppressedAt.isSome := by
      unfold suppress
      cases f.suppressedAt <;> rfl
    refine ⟨fun _ _ _ _ => hmarked, ?_, hf.rule⟩
    intro _
    have hconcerns : s.Concerns sourceId := by
      simp only [Suppression.Covers, Bool.and_eq_true] at hcovers
      exact hcovers.1.1.2
    exact ⟨s, List.mem_append_right _ (List.mem_singleton_self s), rfl, hconcerns⟩
  · rw [if_neg hcovers]
    refine ⟨?_, ?_, hf.rule⟩
    · intro hopen rule hrule hmatches
      obtain ⟨t, ht, hconcerns, hlive, rfl⟩ := mem_applicableSuppressions.1 hrule
      rcases List.mem_append.1 ht with ht | ht
      · exact hf.marked hopen _ (mem_applicableSuppressions.2 ⟨t, ht, hconcerns, hlive, rfl⟩)
          hmatches
      · obtain rfl := List.mem_singleton.1 ht
        -- an open row of a source it concerns that it matches is left out only if marked
        by_contra hnone
        apply hcovers
        simp [Suppression.Covers, hopen, hconcerns, hmatches, Option.not_isSome_iff_eq_none.1 hnone]
    · intro hsome
      obtain ⟨t, ht, hnames, hconcerns⟩ := hf.named hsome
      exact ⟨t, List.mem_append_left _ ht, hnames, hconcerns⟩

theorem applicableSuppressions_filter (suppressions : List Suppression) (id sourceId now : ℕ) :
    (applicableSuppressions suppressions sourceId now).filter (·.id ≠ id) =
      applicableSuppressions (suppressions.filter (·.id ≠ id)) sourceId now := by
  unfold applicableSuppressions
  rw [List.filter_map, List.filter_filter, List.filter_filter]
  congr 1
  apply List.filter_congr
  intro s _
  exact Bool.and_comm _ _

theorem Finding.Standing.uncovered (hf : Standing ruleOf suppressions sourceId now f) (id : ℕ) :
    Standing ruleOf (suppressions.filter (·.id ≠ id)) sourceId now
      (if f.suppressedById = some id then
        handOver ((applicableSuppressions suppressions sourceId now).filter (·.id ≠ id)) f
      else f) := by
  have hmarked : f.state = .opened →
      ∀ rule ∈ applicableSuppressions (suppressions.filter (·.id ≠ id)) sourceId now,
        rule.matches f.sighting → f.suppressedAt.isSome := by
    intro hopen rule hrule
    rw [← applicableSuppressions_filter] at hrule
    exact hf.marked hopen rule (List.mem_filter.1 hrule).1
  by_cases hnamed : f.suppressedById = some id
  · rw [if_pos hnamed, applicableSuppressions_filter]
    exact standing_handOver hmarked hf.rule
  · rw [if_neg hnamed]
    refine ⟨hmarked, ?_, hf.rule⟩
    intro hsome
    obtain ⟨s, hs, hnames, hconcerns⟩ := hf.named hsome
    refine ⟨s, List.mem_filter.2 ⟨hs, ?_⟩, hnames, hconcerns⟩
    apply decide_eq_true
    rintro rfl
    exact hnamed hnames

theorem standing_releaseLapsed {rows : List Finding}
    (hrows : ∀ f ∈ rows, Standing ruleOf suppressions sourceId now f)
    (hids : (suppressions.map (·.id)).Nodup) :
    ∀ f ∈ releaseLapsed suppressions sourceId now rows,
      Standing ruleOf suppressions sourceId now f ∧ (f.suppressedAt.isSome →
        ∃ s ∈ suppressions, f.suppressedById = some s.id ∧ s.Concerns sourceId ∧
          s.Expired now = false) := by
  intro f' hf'
  obtain ⟨f, hmem, rfl⟩ := List.mem_map.1 hf'
  have hf := hrows f hmem
  dsimp only
  by_cases hlapsed : (f.suppressedAt.isSome && !(f.suppressedById.bind fun id =>
      suppressions.find? (·.id = id)).any (fun s => !s.Expired now)) = true
  · rw [if_pos hlapsed]
    refine ⟨standing_handOver hf.marked hf.rule, ?_⟩
    unfold handOver
    cases hfirst : firstMatch (applicableSuppressions suppressions sourceId now) f.sighting with
    | some rule =>
        intro _
        obtain ⟨s, hs, hconcerns, hlive, heq⟩ :=
          mem_applicableSuppressions.1 (List.mem_of_find?_eq_some hfirst)
        exact ⟨s, hs, by rw [← heq], hconcerns, hlive⟩
    | none =>
        intro hsome
        change (release f).suppressedAt.isSome = true at hsome
        rw [Triage.release_suppressedAt] at hsome
        cases hsome
  · rw [if_neg hlapsed]
    refine ⟨hf, ?_⟩
    intro hsome
    obtain ⟨s, hs, hnames, hconcerns⟩ := hf.named hsome
    simp only [hsome, hnames, Bool.true_and, Bool.not_eq_true', Bool.not_eq_false,
      Option.bind_some, Option.any_eq_true] at hlapsed
    obtain ⟨t, ht, hlive⟩ := hlapsed
    have hid : t.id = s.id := by simpa using List.find?_some ht
    obtain rfl := List.inj_on_of_nodup_map hids (List.mem_of_find?_eq_some ht) hs hid
    exact ⟨t, hs, hnames, hconcerns, by simpa using hlive⟩

theorem ruleId_of_findExisting {rows : List Finding} {p : FindingPayload}
    (hrows : ∀ f ∈ rows, ruleOf f.fingerprint = f.ruleId) (hp : p.NamesRule ruleOf)
    (h : findExisting rows p = some f) : f.ruleId = p.ruleId := by
  have hrule := hrows f (mem_of_findExisting h)
  unfold findExisting at h
  cases hfind : rows.find? fun f => f.fingerprint = p.fingerprint with
  | some g =>
      rw [hfind] at h
      obtain rfl := Option.some.inj h
      have hfp : g.fingerprint = p.fingerprint := by simpa using List.find?_some hfind
      rw [← hrule, hfp, hp.fingerprint]
  | none =>
      rw [hfind] at h
      obtain ⟨previous, hprevious, h⟩ := Option.bind_eq_some_iff.1 h
      have hsome := (Option.filter_eq_some_iff.1 h).1
      have hfp : f.fingerprint = previous := by simpa using List.find?_some hsome
      rw [← hrule, hfp, hp.previous previous hprevious]

theorem standing_refresh {p : FindingPayload} (hp : p.NamesRule ruleOf)
    (hrule : f.ruleId = p.ruleId) (scanId : ℕ) :
    Standing ruleOf suppressions sourceId now (refresh (rekeyed f p) scanId p
      (firstMatch (applicableSuppressions suppressions sourceId now) p.sighting) now) := by
  have hkeys : (rekeyed f p).fingerprint = p.fingerprint ∧ (rekeyed f p).ruleId = p.ruleId := by
    unfold rekeyed
    split_ifs with h
    · exact ⟨h, hrule⟩
    · exact ⟨rfl, hrule⟩
  have hsighting : p.sighting =
      ⟨(rekeyed f p).fingerprint, (rekeyed f p).ruleId, p.resourceLocator⟩ := by
    rw [hkeys.1, hkeys.2]
    rfl
  rw [hsighting]
  unfold refresh
  apply standing_applyRule
  rw [hkeys.1, hkeys.2]
  exact hp.fingerprint

theorem standing_create {p : FindingPayload} (hp : p.NamesRule ruleOf) (rows : List Finding)
    (scanId : ℕ) : Standing ruleOf suppressions sourceId now (create rows scanId p
      (firstMatch (applicableSuppressions suppressions sourceId now) p.sighting) now) := by
  unfold create
  exact standing_applyRule hp.fingerprint

/-- What one payload leaves of a table that stands. -/
theorem standing_ingestFinding {rows : List Finding} (hk : Keyed rows)
    (hrows : ∀ f ∈ rows, Standing ruleOf suppressions sourceId now f) {p : FindingPayload}
    (hp : p.NamesRule ruleOf) (scanId : ℕ) :
    ∀ f ∈ ingestFinding (applicableSuppressions suppressions sourceId now) scanId now rows p,
      Standing ruleOf suppressions sourceId now f := by
  intro f hf
  unfold ingestFinding at hf
  dsimp only at hf
  cases hfind : findExisting rows p with
  | none =>
      rw [hfind] at hf
      rcases List.mem_append.1 hf with hf | hf
      · exact hrows f hf
      · rw [List.mem_singleton.1 hf]
        exact standing_create hp rows scanId
  | some existing =>
      rw [hfind] at hf
      obtain ⟨old, hold, rfl⟩ := List.mem_map.1 hf
      split_ifs with hid
      · obtain rfl := hk.eq_of_id hold (mem_of_findExisting hfind) hid
        exact standing_refresh hp
          (ruleId_of_findExisting (fun f hf => (hrows f hf).rule) hp hfind) scanId
      · exact hrows old hold

theorem standing_ingestFindings {rows : List Finding} (hk : Keyed rows)
    (hrows : ∀ f ∈ rows, Standing ruleOf suppressions sourceId now f)
    {payloads : List FindingPayload} (hp : ∀ p ∈ payloads, p.NamesRule ruleOf) (scanId : ℕ)
    (threshold : ℚ) :
    ∀ f ∈ ingestFindings suppressions sourceId scanId now threshold rows payloads,
      Standing ruleOf suppressions sourceId now f := by
  unfold ingestFindings
  have hscored : ∀ p ∈ payloads.filter fun p => p.Scored threshold, p.NamesRule ruleOf :=
    fun p hmem => hp p (List.mem_filter.1 hmem).1
  generalize payloads.filter (fun p => p.Scored threshold) = scored at hscored ⊢
  induction scored generalizing rows with
  | nil => exact hrows
  | cons p rest ih =>
      have hkeyed := (ingestFinding_spec hk (applicableSuppressions suppressions sourceId now)
        scanId now p).1
      have hnext := standing_ingestFinding hk hrows (hscored p List.mem_cons_self) scanId
      exact ih hkeyed hnext fun q hq => hscored q (List.mem_cons_of_mem p hq)

theorem triageTo_opened (f : Finding) : (triageTo .opened f).state = .opened ∧
    (triageTo .opened f).sighting = f.sighting ∧
      (triageTo .opened f).suppressedAt = f.suppressedAt := by
  unfold triageTo
  cases hstate : f.state with
  | opened => exact ⟨hstate, rfl, rfl⟩
  | _ => exact ⟨rfl, rfl, rfl⟩

theorem Finding.Standing.triaged (hf : Standing ruleOf suppressions sourceId now f)
    {target : FindingState} (hnoticed : target = .opened → f.state ≠ .opened →
      f.suppressedAt.isSome ∨
        ∀ rule ∈ applicableSuppressions suppressions sourceId now, ¬ rule.matches f.sighting) :
    Standing ruleOf suppressions sourceId now (triageTo target f) := by
  unfold triageTo
  by_cases hlegal : target ∈ legalTransitions f.state
  · rw [if_pos hlegal]
    refine ⟨?_, hf.named, hf.rule⟩
    intro hopen rule hrule hmatches
    obtain rfl : target = .opened := hopen
    have hclosed : f.state ≠ .opened := by
      intro h
      rw [h] at hlegal
      exact absurd hlegal (by decide)
    rcases hnoticed rfl hclosed with hsome | hnone
    · exact hsome
    · exact absurd hmatches (hnone rule hrule)
  · rw [if_neg hlegal]
    exact hf

theorem Finding.Standing.autoResolved (hf : Standing ruleOf suppressions sourceId now f) (id : ℕ) :
    Standing ruleOf suppressions sourceId now (autoResolve id f) := by
  unfold autoResolve
  split_ifs
  · refine ⟨?_, hf.named, hf.rule⟩
    intro hopen
    cases hopen
  · exact hf

end Rows

namespace SuppressionLife

variable {ruleOf : String → String} {w w' : SuppressionLife}

structure Sound (ruleOf : String → String) (w : SuppressionLife) : Prop where
  ids : (w.suppressions.map (·.id)).Nodup
  keyed : ∀ sourceId, Keyed (w.findings sourceId)
  standing : ∀ sourceId, ∀ f ∈ w.findings sourceId,
    f.Standing ruleOf w.suppressions sourceId w.clock

theorem IsEmpty.sound (hw : w.IsEmpty) : w.Sound ruleOf := by
  constructor
  · rw [hw.1]
    exact List.nodup_nil
  · intro sourceId
    rw [hw.2 sourceId]
    exact ⟨List.nodup_nil, List.nodup_nil⟩
  · intro sourceId f hf
    rw [hw.2 sourceId] at hf
    cases hf

theorem Sound.setFindings (hs : w.Sound ruleOf) {sourceId : ℕ} {rows : List Finding}
    (hk : Keyed rows)
    (hrows : ∀ f ∈ rows, f.Standing ruleOf w.suppressions sourceId w.clock) :
    (w.setFindings sourceId rows).Sound ruleOf := by
  refine ⟨hs.ids, ?_, ?_⟩
  · intro sourceId'
    by_cases h : sourceId' = sourceId
    · rw [h, setFindings_self]
      exact hk
    · rw [setFindings_of_ne w rows h]
      exact hs.keyed sourceId'
  · intro sourceId' f hf
    by_cases h : sourceId' = sourceId
    · subst h
      rw [setFindings_self] at hf
      exact hrows f hf
    · rw [setFindings_of_ne w rows h] at hf
      exact hs.standing sourceId' f hf

theorem Sound.create (hs : w.Sound ruleOf) {s : Suppression}
    (hfresh : ∀ t ∈ w.suppressions, t.id ≠ s.id) :
    Sound ruleOf { w with
      suppressions := w.suppressions ++ [s]
      findings := fun sourceId => applyToExisting s sourceId w.clock (w.findings sourceId) } := by
  refine ⟨?_, ?_, ?_⟩
  · rw [List.map_append, List.map_singleton, ← List.concat_eq_append]
    apply hs.ids.concat
    intro hmem
    obtain ⟨t, ht, hid⟩ := List.mem_map.1 hmem
    exact hfresh t ht hid
  · intro sourceId
    exact ((Triage.keepsKeys_suppress s.toSuppressionRule w.clock).ite
      fun f => s.Covers sourceId f = true).keyed (hs.keyed sourceId)
  · intro sourceId f hf
    obtain ⟨old, hold, rfl⟩ := List.mem_map.1 hf
    exact (hs.standing sourceId old hold).covered s

theorem Sound.delete (hs : w.Sound ruleOf) (s : Suppression) :
    Sound ruleOf { w with
      suppressions := w.suppressions.filter (·.id ≠ s.id)
      findings := fun sourceId =>
        releaseCoveredBy w.suppressions s sourceId w.clock (w.findings sourceId) } := by
  refine ⟨?_, ?_, ?_⟩
  · exact hs.ids.sublist (List.filter_sublist.map _)
  · intro sourceId
    exact ((keepsKeys_handOver _).ite fun f => f.suppressedById = some s.id).keyed
      (hs.keyed sourceId)
  · intro sourceId f hf
    obtain ⟨old, hold, rfl⟩ := List.mem_map.1 hf
    exact (hs.standing sourceId old hold).uncovered s.id

theorem Sound.sweep (hs : w.Sound ruleOf) :
    Sound ruleOf { w with
      findings := fun sourceId =>
        releaseLapsed w.suppressions sourceId w.clock (w.findings sourceId) } := by
  refine ⟨hs.ids, ?_, ?_⟩
  · intro sourceId
    exact ((keepsKeys_handOver _).ite fun f =>
      (f.suppressedAt.isSome && !(f.suppressedById.bind fun id =>
        w.suppressions.find? (·.id = id)).any (fun s => !s.Expired w.clock)) = true).keyed
      (hs.keyed sourceId)
  · intro sourceId f hf
    exact (standing_releaseLapsed (hs.standing sourceId) hs.ids f hf).1

theorem Sound.triage (hs : w.Sound ruleOf) {sourceId id : ℕ} {target : FindingState}
    (hnoticed : w.Noticed (.triage sourceId id target)) :
    (w.setFindings sourceId ((w.findings sourceId).map fun f =>
      if f.id = id then triageTo target f else f)).Sound ruleOf := by
  apply hs.setFindings
  · exact ((Triage.keepsKeys_triageTo target).ite fun f => f.id = id).keyed (hs.keyed sourceId)
  · intro f hf
    obtain ⟨old, hold, rfl⟩ := List.mem_map.1 hf
    have hstanding := hs.standing sourceId old hold
    by_cases hid : old.id = id
    · rw [if_pos hid]
      apply hstanding.triaged
      rintro rfl hclosed
      exact hnoticed old hold hid hclosed
    · rw [if_neg hid]
      exact hstanding

theorem Sound.step (hs : w.Sound ruleOf) {a : SuppressionAction} (hengine : a.FromEngine ruleOf)
    (hnoticed : w.Noticed a) (h : w.step a = some w') : w'.Sound ruleOf := by
  cases a with
  | tick elapsed =>
      obtain rfl := Option.some.inj h
      exact ⟨hs.ids, hs.keyed, fun sourceId f hf => (hs.standing sourceId f hf).later elapsed⟩
  | create s =>
      obtain ⟨⟨-, hfresh⟩, hput⟩ := Option.ite_none_right_eq_some.1 h
      obtain rfl := Option.some.inj hput
      exact hs.create hfresh
  | delete id =>
      obtain ⟨s, hfind, rfl⟩ := Option.map_eq_some_iff.1 h
      have hid : s.id = id := by simpa using List.find?_some hfind
      subst hid
      exact hs.delete s
  | sweep =>
      obtain rfl := Option.some.inj h
      exact hs.sweep
  | ingest sourceId scanId threshold payloads =>
      obtain rfl := Option.some.inj h
      apply hs.setFindings
      · exact (ingestFindings_spec (hs.keyed sourceId) w.suppressions sourceId scanId w.clock
          threshold payloads).1
      · exact standing_ingestFindings (hs.keyed sourceId) (hs.standing sourceId) hengine scanId
          threshold
  | triage sourceId id target =>
      obtain rfl := Option.some.inj h
      exact hs.triage hnoticed
  | resolveUnseen sourceId id =>
      obtain rfl := Option.some.inj h
      apply hs.setFindings
      · exact (Triage.keepsKeys_autoResolve id).keyed (hs.keyed sourceId)
      · intro f hf
        obtain ⟨old, hold, rfl⟩ := List.mem_map.1 hf
        exact (hs.standing sourceId old hold).autoResolved id

theorem Sound.consistent (hs : w.Sound ruleOf) : w.Consistent :=
  fun sourceId f hf => (hs.standing sourceId f hf).marked

/-- The condition on a re-opening is exact. -/
theorem reopening_consistent_iff {sourceId id : ℕ} (hw : w.Consistent)
    (h : w.step (.triage sourceId id .opened) = some w') :
    w'.Consistent ↔ w.Noticed (.triage sourceId id .opened) := by
  obtain rfl := Option.some.inj h
  constructor
  · intro hconsistent f hf hid hclosed
    obtain ⟨hopen, hsighting, hmark⟩ := triageTo_opened f
    have hmem : triageTo .opened f ∈ (w.setFindings sourceId ((w.findings sourceId).map fun f =>
        if f.id = id then triageTo .opened f else f)).findings sourceId := by
      rw [setFindings_self]
      exact List.mem_map.2 ⟨f, hf, if_pos hid⟩
    by_cases hsome : f.suppressedAt.isSome
    · exact Or.inl hsome
    · right
      intro rule hrule hmatches
      apply hsome
      rw [← hmark]
      exact hconsistent sourceId _ hmem hopen rule hrule (by rw [hsighting]; exact hmatches)
  · intro hnoticed sourceId' f hf hopen rule hrule hmatches
    by_cases hsource : sourceId' = sourceId
    · subst hsource
      rw [setFindings_self] at hf
      obtain ⟨old, hold, rfl⟩ := List.mem_map.1 hf
      by_cases hmoved : old.id = id ∧ old.state ≠ .opened
      · rw [if_pos hmoved.1] at hmatches ⊢
        obtain ⟨-, hsighting, hmark⟩ := triageTo_opened old
        rw [hsighting] at hmatches
        rw [hmark]
        rcases hnoticed old hold hmoved.1 hmoved.2 with hsome | hnone
        · exact hsome
        · exact absurd hmatches (hnone rule hrule)
      · have hkept : (if old.id = id then triageTo .opened old else old) = old := by
          by_cases hid : old.id = id
          · rw [if_pos hid]
            have hopened : old.state = .opened := by
              by_contra hclosed
              exact hmoved ⟨hid, hclosed⟩
            unfold triageTo
            rw [if_neg (by rw [hopened]; decide)]
          · exact if_neg hid
        rw [hkept] at hopen hmatches ⊢
        exact hw sourceId' old hold hopen rule hrule hmatches
    · rw [setFindings_of_ne w _ hsource] at hf
      exact hw sourceId' f hf hopen rule hrule hmatches

/-- In every run whose re-openings are noticed the open findings are marked as the live
suppressions say, and after a sweep every mark names a live suppression. -/
theorem suppression_is_consistent (ruleOf : String → String)
    (hw : Machine.Reachable step (fun w a => a.FromEngine ruleOf ∧ w.Noticed a) IsEmpty w) :
    w.Consistent ∧ ∀ w', w.step .sweep = some w' → w'.Swept := by
  have hs : w.Sound ruleOf := by
    apply hw.invariant
    · intro w hempty
      exact hempty.sound
    · intro w a w' hs ha hstep
      exact hs.step ha.1 ha.2 hstep
  refine ⟨hs.consistent, ?_⟩
  intro w' hsweep sourceId f hf
  obtain rfl := Option.some.inj hsweep
  exact (standing_releaseLapsed (hs.standing sourceId) hs.ids f hf).2

instance (ruleOf : String → String) (p : FindingPayload) : Decidable (p.NamesRule ruleOf) :=
  decidable_of_iff (ruleOf p.fingerprint = p.ruleId ∧
    ∀ previous ∈ p.previousFingerprint, ruleOf previous = p.ruleId)
    ⟨fun h => ⟨h.1, h.2⟩, fun h => ⟨h.fingerprint, h.previous⟩⟩

instance (ruleOf : String → String) (a : SuppressionAction) : Decidable (a.FromEngine ruleOf) :=
  match a with
  | .ingest _ _ _ payloads => inferInstanceAs (Decidable (∀ p ∈ payloads, p.NamesRule ruleOf))
  | .tick _ | .create _ | .delete _ | .sweep | .triage .. | .resolveUnseen .. => .isTrue trivial

instance (w : SuppressionLife) (a : SuppressionAction) : Decidable (w.Noticed a) :=
  match a with
  | .triage sourceId _ .opened =>
      inferInstanceAs (Decidable (∀ f ∈ w.findings sourceId, _ → _ → _ ∨ ∀ rule ∈ _, _))
  | .triage _ _ .falsePositive | .triage _ _ .acceptedRisk | .triage _ _ .resolved | .tick _
  | .create _ | .delete _ | .sweep | .ingest .. | .resolveUnseen .. => .isTrue trivial

def fixturePayload : FindingPayload where
  fingerprint := "f1"
  secretHash := "h1"
  ruleId := "aws-access-key"
  resourceLocator := [("path", "tests/fixtures/keys.txt")]

def fixtureGlob : Suppression where
  id := 7
  scope := .pathGlob
  pattern := "tests/*"
  sourceId := some 1
  expiresAt := some 10

/-- The glob is made while the finding is judged; a scan marks it before it is re-opened,
and the glob lapses before the last sweep. -/
theorem suppression_is_consistent_after_a_scan : ∃ w : SuppressionLife,
    (w.findings 1).map (fun f => (f.state, f.suppressedById)) = [(.opened, some 7)] ∧
      w.Consistent ∧ ∀ w', w.step .sweep = some w' → w'.Swept := by
  have hrun : (Machine.run step
      (fun w a => a.FromEngine (fun _ => "aws-access-key") ∧ w.Noticed a) { clock := 0 }
      [.ingest 1 1 0 [fixturePayload], .triage 1 1 .falsePositive, .create fixtureGlob,
        .ingest 1 2 0 [fixturePayload], .triage 1 1 .opened, .tick 20]).any fun w =>
          (w.findings 1).map (fun f => (f.state, f.suppressedById)) = [(.opened, some 7)] := by
    decide +kernel
  have hreach : Machine.Reachable step
      (fun w a => a.FromEngine (fun _ => "aws-access-key") ∧ w.Noticed a) IsEmpty { clock := 0 } :=
    .start ⟨rfl, fun _ => rfl⟩
  obtain ⟨w, hw, hmarked⟩ := hreach.exists_of_run hrun
  exact ⟨w, hmarked, suppression_is_consistent _ hw⟩

/-- The analyst re-opens the finding before a scan has seen it again. -/
theorem suppression_can_be_inconsistent : ∃ w : SuppressionLife,
    Machine.Reachable step (fun _ a => a.FromEngine fun _ => "aws-access-key") IsEmpty w ∧
      ¬ w.Consistent := by
  have hrun : (Machine.run step (fun _ a => a.FromEngine fun _ => "aws-access-key") { clock := 0 }
      [.ingest 1 1 0 [fixturePayload], .triage 1 1 .falsePositive, .create fixtureGlob,
        .triage 1 1 .opened]).any fun w =>
          ∃ f ∈ w.findings 1, f.state = .opened ∧ f.suppressedAt = none ∧
            ∃ rule ∈ w.liveRules 1, rule.matches f.sighting := by
    decide +kernel
  have hreach : Machine.Reachable step (fun _ a => a.FromEngine fun _ => "aws-access-key") IsEmpty
      { clock := 0 } := .start ⟨rfl, fun _ => rfl⟩
  obtain ⟨w, hw, f, hf, hopen, hnone, rule, hrule, hmatches⟩ := hreach.exists_of_run hrun
  refine ⟨w, hw, ?_⟩
  intro hconsistent
  have hmarked := hconsistent 1 f hf hopen rule hrule hmatches
  rw [hnone] at hmarked
  cases hmarked

end SuppressionLife

end IcebergSST
