import IcebergSST.Suppression

/-!
# Stored findings

The finding rows of one source, and what ingest, the suppression routes and the lapse
sweep make of them. A row is found by its fingerprint or, while the pepper rotates, by
the fingerprint the engine reports for the outgoing one.
-/

namespace IcebergSST

inductive FindingState
  /-- `OPEN` -/
  | opened
  | falsePositive
  | acceptedRisk
  | resolved
  deriving DecidableEq, Repr

inductive FindingResolution
  | manual
  | auto
  deriving DecidableEq, Repr

def legalTransitions : FindingState → List FindingState
  | .opened => [.falsePositive, .acceptedRisk, .resolved]
  | .falsePositive | .acceptedRisk | .resolved => [.opened]

structure Finding where
  id : ℕ
  fingerprint : String
  secretHash : String
  ruleId : String
  resourceLocator : Locator := []
  state : FindingState := .opened
  resolution : Option FindingResolution := none
  lastSeenScanId : ℕ
  suppressedAt : Option ℕ := none
  suppressedById : Option ℕ := none
  deriving DecidableEq, Repr

/-- What an engine reports of one match, as far as identity and suppression go. -/
structure FindingPayload where
  fingerprint : String
  secretHash : String
  ruleId : String
  resourceLocator : Locator := []
  confidence : Option ℚ := none
  previousFingerprint : Option String := none
  previousSecretHash : Option String := none
  deriving DecidableEq, Repr

def Finding.sighting (f : Finding) : Sighting := ⟨f.fingerprint, f.ruleId, f.resourceLocator⟩

def FindingPayload.sighting (p : FindingPayload) : Sighting :=
  ⟨p.fingerprint, p.ruleId, p.resourceLocator⟩

/-- An unscored match is kept. -/
def FindingPayload.Scored (threshold : ℚ) (p : FindingPayload) : Bool :=
  p.confidence.all (threshold ≤ ·)

def suppress (f : Finding) (rule : SuppressionRule) (now : ℕ) : Finding :=
  { f with suppressedAt := f.suppressedAt <|> some now, suppressedById := some rule.id }

def release (f : Finding) : Finding :=
  if f.suppressedAt = none then f else { f with suppressedAt := none, suppressedById := none }

def sameSecret (existing : Finding) (p : FindingPayload) : Bool :=
  p.previousSecretHash.all (· = existing.secretHash)

def findExisting (rows : List Finding) (p : FindingPayload) : Option Finding :=
  match rows.find? fun f => f.fingerprint = p.fingerprint with
  | some f => some f
  | none =>
      p.previousFingerprint.bind fun previous =>
        (rows.find? fun f => f.fingerprint = previous).filter fun f => sameSecret f p

def rekeyed (f : Finding) (p : FindingPayload) : Finding :=
  if f.fingerprint = p.fingerprint then f
  else { f with fingerprint := p.fingerprint, secretHash := p.secretHash }

def applyRule (f : Finding) (rule : Option SuppressionRule) (now : ℕ) : Finding :=
  match rule with
  | some rule => suppress f rule now
  | none => release f

def refresh (f : Finding) (scanId : ℕ) (p : FindingPayload) (rule : Option SuppressionRule)
    (now : ℕ) : Finding :=
  let reopened := f.state = .resolved
  applyRule { f with
    lastSeenScanId := scanId
    resourceLocator := p.resourceLocator
    state := if reopened then .opened else f.state
    resolution := if reopened then none else f.resolution } rule now

def create (rows : List Finding) (scanId : ℕ) (p : FindingPayload) (rule : Option SuppressionRule)
    (now : ℕ) : Finding :=
  applyRule
    { id := (rows.map (·.id)).foldr max 0 + 1
      fingerprint := p.fingerprint
      secretHash := p.secretHash
      ruleId := p.ruleId
      resourceLocator := p.resourceLocator
      lastSeenScanId := scanId } rule now

def ingestFinding (rules : List SuppressionRule) (scanId now : ℕ) (rows : List Finding)
    (p : FindingPayload) : List Finding :=
  let rule := firstMatch rules p.sighting
  match findExisting rows p with
  | none => rows ++ [create rows scanId p rule now]
  | some existing =>
      rows.map fun f => if f.id = existing.id then refresh (rekeyed f p) scanId p rule now else f

def ingestFindings (suppressions : List Suppression) (sourceId scanId now : ℕ) (threshold : ℚ)
    (rows : List Finding) (payloads : List FindingPayload) : List Finding :=
  (payloads.filter fun p => p.Scored threshold).foldl
    (ingestFinding (applicableSuppressions suppressions sourceId now) scanId now) rows

/-- Which stored findings a new suppression covers on the spot. A glob is applied to the
open ones only. -/
def Suppression.Covers (s : Suppression) (sourceId : ℕ) (f : Finding) : Bool :=
  f.suppressedAt.isNone && s.Concerns sourceId && (s.scope ≠ .pathGlob || f.state = .opened) &&
    s.toSuppressionRule.matches f.sighting

def applyToExisting (s : Suppression) (sourceId now : ℕ) (rows : List Finding) : List Finding :=
  rows.map fun f => if s.Covers sourceId f then suppress f s.toSuppressionRule now else f

/-- Hand a hidden finding over to another live rule that covers it, or release it. -/
def handOver (rules : List SuppressionRule) (f : Finding) : Finding :=
  match firstMatch rules f.sighting with
  | some replacement => { f with suppressedById := some replacement.id }
  | none => release f

def releaseCoveredBy (suppressions : List Suppression) (s : Suppression) (sourceId now : ℕ)
    (rows : List Finding) : List Finding :=
  rows.map fun f =>
    if f.suppressedById = some s.id then
      handOver ((applicableSuppressions suppressions sourceId now).filter (·.id ≠ s.id)) f
    else f

def releaseLapsed (suppressions : List Suppression) (sourceId now : ℕ) (rows : List Finding) :
    List Finding :=
  rows.map fun f =>
    let recorded := f.suppressedById.bind fun id => suppressions.find? (·.id = id)
    if f.suppressedAt.isSome && !recorded.any (fun s => !s.Expired now) then
      handOver (applicableSuppressions suppressions sourceId now) f
    else f

/-- The two unique constraints of the table. -/
structure Keyed (rows : List Finding) : Prop where
  ids : (rows.map (·.id)).Nodup
  fingerprints : (rows.map (·.fingerprint)).Nodup

/-- An update that leaves a row's identity alone. -/
structure KeepsKeys (g : Finding → Finding) : Prop where
  id : ∀ f, (g f).id = f.id
  fingerprint : ∀ f, (g f).fingerprint = f.fingerprint
  secretHash : ∀ f, (g f).secretHash = f.secretHash
  lastSeenScanId : ∀ f, (g f).lastSeenScanId = f.lastSeenScanId

theorem keepsKeys_release : KeepsKeys release := by
  constructor <;> intro f <;> unfold release <;> split_ifs <;> rfl

theorem keepsKeys_handOver (rules : List SuppressionRule) : KeepsKeys (handOver rules) := by
  constructor <;> intro f <;> unfold handOver <;> split <;>
    first
    | rfl
    | simp only [keepsKeys_release.id, keepsKeys_release.fingerprint,
        keepsKeys_release.secretHash, keepsKeys_release.lastSeenScanId]

theorem KeepsKeys.ite {g : Finding → Finding} (h : KeepsKeys g) (c : Finding → Prop)
    [DecidablePred c] : KeepsKeys fun f => if c f then g f else f := by
  constructor <;> intro f <;> split_ifs <;>
    first
    | rfl
    | exact h.id f
    | exact h.fingerprint f
    | exact h.secretHash f
    | exact h.lastSeenScanId f

theorem KeepsKeys.keyed {g : Finding → Finding} (h : KeepsKeys g) {rows : List Finding}
    (hk : Keyed rows) : Keyed (rows.map g) := by
  have hids : (fun f => f.id) ∘ g = fun f => f.id := funext h.id
  have hfps : (fun f => f.fingerprint) ∘ g = fun f => f.fingerprint := funext h.fingerprint
  constructor
  · rw [List.map_map, hids]
    exact hk.ids
  · rw [List.map_map, hfps]
    exact hk.fingerprints

theorem KeepsKeys.findExisting {g : Finding → Finding} (h : KeepsKeys g) (rows : List Finding)
    (p : FindingPayload) : findExisting (rows.map g) p = (findExisting rows p).map g := by
  have hfind : ∀ fp : String, (rows.map g).find? (fun f => f.fingerprint = fp) =
      (rows.find? fun f => f.fingerprint = fp).map g := by
    intro fp
    rw [List.find?_map]
    congr 2
    funext f
    simp [h.fingerprint]
  unfold IcebergSST.findExisting
  rw [hfind]
  cases rows.find? fun f => f.fingerprint = p.fingerprint with
  | some f => rfl
  | none =>
      cases p.previousFingerprint with
      | none => rfl
      | some previous =>
          simp only [Option.map_none, Option.bind_some, hfind]
          cases rows.find? fun f => f.fingerprint = previous with
          | none => rfl
          | some f =>
              have hsame : sameSecret (g f) p = sameSecret f p := by
                unfold sameSecret
                rw [h.secretHash]
              simp only [Option.map_some, Option.filter, hsame]
              split_ifs <;> rfl

theorem mem_of_findExisting {rows : List Finding} {p : FindingPayload} {f : Finding}
    (h : findExisting rows p = some f) : f ∈ rows := by
  unfold findExisting at h
  cases hfind : rows.find? fun f => f.fingerprint = p.fingerprint with
  | some g =>
      rw [hfind] at h
      obtain rfl := Option.some.inj h
      exact List.mem_of_find?_eq_some hfind
  | none =>
      rw [hfind] at h
      obtain ⟨previous, -, h⟩ := Option.bind_eq_some_iff.1 h
      exact List.mem_of_find?_eq_some (Option.filter_eq_some_iff.1 h).1

theorem Keyed.eq_of_fingerprint {rows : List Finding} (hk : Keyed rows) {f g : Finding}
    (hf : f ∈ rows) (hg : g ∈ rows) (h : f.fingerprint = g.fingerprint) : f = g :=
  List.inj_on_of_nodup_map hk.fingerprints hf hg h

theorem Keyed.eq_of_id {rows : List Finding} (hk : Keyed rows) {f g : Finding}
    (hf : f ∈ rows) (hg : g ∈ rows) (h : f.id = g.id) : f = g :=
  List.inj_on_of_nodup_map hk.ids hf hg h

theorem Keyed.findExisting_of_fingerprint {rows : List Finding} (hk : Keyed rows)
    {p : FindingPayload} {f : Finding} (hf : f ∈ rows) (h : f.fingerprint = p.fingerprint) :
    findExisting rows p = some f := by
  have hsome : (rows.find? fun g => g.fingerprint = p.fingerprint).isSome :=
    List.find?_isSome.2 ⟨f, hf, by simpa using h⟩
  obtain ⟨g, hg⟩ := Option.isSome_iff_exists.1 hsome
  have hgfp : g.fingerprint = p.fingerprint := by simpa using List.find?_some hg
  obtain rfl := hk.eq_of_fingerprint hf (List.mem_of_find?_eq_some hg) (h.trans hgfp.symm)
  unfold findExisting
  rw [hg]

theorem applyRule_keys (f : Finding) (rule : Option SuppressionRule) (now : ℕ) :
    (applyRule f rule now).id = f.id ∧ (applyRule f rule now).fingerprint = f.fingerprint ∧
      (applyRule f rule now).lastSeenScanId = f.lastSeenScanId := by
  unfold applyRule
  cases rule with
  | some rule => exact ⟨rfl, rfl, rfl⟩
  | none =>
      exact ⟨keepsKeys_release.id f, keepsKeys_release.fingerprint f,
        keepsKeys_release.lastSeenScanId f⟩

theorem refresh_rekeyed (f : Finding) (scanId : ℕ) (p : FindingPayload)
    (rule : Option SuppressionRule) (now : ℕ) :
    (refresh (rekeyed f p) scanId p rule now).id = f.id ∧
      (refresh (rekeyed f p) scanId p rule now).fingerprint = p.fingerprint ∧
      (refresh (rekeyed f p) scanId p rule now).lastSeenScanId = scanId := by
  unfold refresh
  dsimp only
  obtain ⟨hid, hfp, hseen⟩ := applyRule_keys _ rule now
  rw [hid, hfp, hseen]
  have hrekeyed : (rekeyed f p).id = f.id ∧ (rekeyed f p).fingerprint = p.fingerprint := by
    unfold rekeyed
    split_ifs with h
    · exact ⟨rfl, h⟩
    · exact ⟨rfl, rfl⟩
  exact ⟨hrekeyed.1, hrekeyed.2, rfl⟩

theorem create_keys (rows : List Finding) (scanId : ℕ) (p : FindingPayload)
    (rule : Option SuppressionRule) (now : ℕ) :
    (create rows scanId p rule now).id = (rows.map (·.id)).foldr max 0 + 1 ∧
      (create rows scanId p rule now).fingerprint = p.fingerprint ∧
      (create rows scanId p rule now).lastSeenScanId = scanId :=
  applyRule_keys _ rule now

theorem le_foldr_max {ids : List ℕ} {n : ℕ} (h : n ∈ ids) : n ≤ ids.foldr max 0 := by
  induction ids with
  | nil => cases h
  | cons m ids ih =>
      rw [List.foldr_cons]
      rcases List.mem_cons.1 h with rfl | h
      · exact le_max_left _ _
      · exact (ih h).trans (le_max_right _ _)

/-- Every row is one from before or was seen by this scan, and the payload's own row
was seen. -/
theorem ingestFinding_spec {rows : List Finding} (hk : Keyed rows) (rules : List SuppressionRule)
    (scanId now : ℕ) (p : FindingPayload) :
    Keyed (ingestFinding rules scanId now rows p) ∧
      (∀ f ∈ ingestFinding rules scanId now rows p, f ∈ rows ∨ f.lastSeenScanId = scanId) ∧
      ∀ f ∈ ingestFinding rules scanId now rows p, f.fingerprint = p.fingerprint →
        f.lastSeenScanId = scanId := by
  unfold ingestFinding
  dsimp only
  cases hfind : findExisting rows p with
  | none =>
      obtain ⟨hid, hfp, hseen⟩ := create_keys rows scanId p (firstMatch rules p.sighting) now
      have hnew : ∀ f ∈ rows, f.fingerprint ≠ p.fingerprint := by
        intro f hf h
        rw [hk.findExisting_of_fingerprint hf h] at hfind
        cases hfind
      refine ⟨⟨?_, ?_⟩, ?_, ?_⟩
      · rw [List.map_append, List.map_singleton, hid, ← List.concat_eq_append]
        apply hk.ids.concat
        intro hmem
        have hle := le_foldr_max hmem
        omega
      · rw [List.map_append, List.map_singleton, hfp, ← List.concat_eq_append]
        apply hk.fingerprints.concat
        intro hmem
        obtain ⟨f, hf, hsame⟩ := List.mem_map.1 hmem
        exact hnew f hf hsame
      · intro f hf
        rcases List.mem_append.1 hf with h | h
        · exact Or.inl h
        · rw [List.mem_singleton.1 h]
          exact Or.inr hseen
      · intro f hf hffp
        rcases List.mem_append.1 hf with h | h
        · exact absurd hffp (hnew f h)
        · rw [List.mem_singleton.1 h]
          exact hseen
  | some existing =>
      have hmem := mem_of_findExisting hfind
      -- no other row has the fingerprint the payload brings
      have hother : ∀ f ∈ rows, f.id ≠ existing.id → f.fingerprint ≠ p.fingerprint := by
        intro f hf hne hfp
        rw [hk.findExisting_of_fingerprint hf hfp] at hfind
        exact hne (congrArg Finding.id (Option.some.inj hfind))
      have hkeys := fun f => refresh_rekeyed f scanId p (firstMatch rules p.sighting) now
      refine ⟨⟨?_, ?_⟩, ?_, ?_⟩
      · rw [List.map_map, List.map_congr_left (g := fun f : Finding => f.id)]
        · exact hk.ids
        · intro f _
          dsimp only [Function.comp]
          split_ifs
          · exact (hkeys f).1
          · rfl
      · rw [List.map_map]
        refine List.Nodup.map_on ?_ (List.Nodup.of_map _ hk.ids)
        intro f hf g hg h
        dsimp only [Function.comp] at h
        split_ifs at h with hfid hgid hgid
        · exact hk.eq_of_id hf hg (hfid.trans hgid.symm)
        · rw [(hkeys f).2.1] at h
          exact absurd h.symm (hother g hg hgid)
        · rw [(hkeys g).2.1] at h
          exact absurd h (hother f hf hfid)
        · exact hk.eq_of_fingerprint hf hg h
      · intro f hf
        obtain ⟨old, hold, rfl⟩ := List.mem_map.1 hf
        split_ifs
        · exact Or.inr (hkeys old).2.2
        · exact Or.inl hold
      · intro f hf hfp
        obtain ⟨old, hold, rfl⟩ := List.mem_map.1 hf
        split_ifs at hfp ⊢ with hid
        · exact (hkeys old).2.2
        · exact absurd hfp (hother old hold hid)

/-- After a batch, every row is one from before or was seen, and so is every row that a
payload of the batch names. -/
theorem ingestFindings_spec {rows : List Finding} (hk : Keyed rows)
    (suppressions : List Suppression) (sourceId scanId now : ℕ) (threshold : ℚ)
    (payloads : List FindingPayload) :
    Keyed (ingestFindings suppressions sourceId scanId now threshold rows payloads) ∧
      (∀ f ∈ ingestFindings suppressions sourceId scanId now threshold rows payloads,
        f ∈ rows ∨ f.lastSeenScanId = scanId) ∧
      ∀ p ∈ payloads, p.Scored threshold →
        ∀ f ∈ ingestFindings suppressions sourceId scanId now threshold rows payloads,
          f.fingerprint = p.fingerprint → f.lastSeenScanId = scanId := by
  unfold ingestFindings
  have hall : ∀ scored : List FindingPayload, ∀ rows, Keyed rows →
      Keyed (scored.foldl
        (ingestFinding (applicableSuppressions suppressions sourceId now) scanId now) rows) ∧
      (∀ f ∈ scored.foldl
        (ingestFinding (applicableSuppressions suppressions sourceId now) scanId now) rows,
        f ∈ rows ∨ f.lastSeenScanId = scanId) ∧
      ∀ p ∈ scored, ∀ f ∈ scored.foldl
        (ingestFinding (applicableSuppressions suppressions sourceId now) scanId now) rows,
        f.fingerprint = p.fingerprint → f.lastSeenScanId = scanId := by
    intro scored
    induction scored with
    | nil => exact fun rows hk => ⟨hk, fun f hf => Or.inl hf, fun p hp => by cases hp⟩
    | cons p rest ih =>
        intro rows hk
        obtain ⟨hk₁, hold₁, hseen₁⟩ := ingestFinding_spec hk
          (applicableSuppressions suppressions sourceId now) scanId now p
        obtain ⟨hk₂, hold₂, hseen₂⟩ := ih _ hk₁
        refine ⟨hk₂, ?_, ?_⟩
        · intro f hf
          rcases hold₂ f hf with h | h
          · exact hold₁ f h
          · exact Or.inr h
        · intro q hq f hf hfp
          rcases List.mem_cons.1 hq with rfl | hq
          · rcases hold₂ f hf with h | h
            · exact hseen₁ f h hfp
            · exact h
          · exact hseen₂ q hq f hf hfp
  obtain ⟨hk', hold, hseen⟩ := hall (payloads.filter fun p => p.Scored threshold) rows hk
  exact ⟨hk', hold, fun p hp hscored => hseen p (List.mem_filter.2 ⟨hp, hscored⟩)⟩

end IcebergSST
