import IcebergSST.Library.Machine
import IcebergSST.AutoResolve
import IcebergSST.Trail

/-!
# Rotating the pepper

While a pepper rotates, a lease carries the outgoing one as well when it could be read,
and its engine reports what it finds under both identities; any other engine reports the
current identity alone. Ingest re-keys a stored finding when the current identity is
unknown and the outgoing one is not.

A finding comes through the window whole when nothing is reported under the current
identity alone while it is stored under the outgoing one, and it stays hidden when a live
suppression matches what is reported. Without the first it is split in two for good.
-/

namespace IcebergSST

structure TrackedFinding extends FindingRecord where
  events : List FindingEvent := []
  deriving DecidableEq, Repr

namespace TrackedFinding

/-- The row that ingest creates, and the event of a suppression that already covers it. -/
def created (rows : List Finding) (scanId : ℕ) (p : FindingPayload)
    (rule : Option SuppressionRule) (now : ℕ) : TrackedFinding where
  toFinding := create rows scanId p rule now
  events := ruleEvents (create rows scanId p none now) scanId rule

def sighted (scanId now : ℕ) (p : FindingPayload) (rule : Option SuppressionRule)
    (f : TrackedFinding) : TrackedFinding where
  toFindingRecord := (sight scanId now f.toFindingRecord p rule).1
  events := f.events ++ (sight scanId now f.toFindingRecord p rule).2

/-- A change that leaves the identity of a row alone. -/
def updatedBy (update : TrackedFinding → TrackedFinding) (f : TrackedFinding) : TrackedFinding :=
  { update f with id := f.id, fingerprint := f.fingerprint, secretHash := f.secretHash }

def HiddenBy (live : List SuppressionRule) (f : TrackedFinding) : Prop :=
  f.suppressedAt.isSome ∧ ∃ rule ∈ live, f.suppressedById = some rule.id

instance (live : List SuppressionRule) (f : TrackedFinding) : Decidable (f.HiddenBy live) :=
  inferInstanceAs (Decidable (_ ∧ ∃ rule ∈ live, _))

end TrackedFinding

def ingestTracked (rules : List SuppressionRule) (scanId now : ℕ) (rows : List TrackedFinding)
    (p : FindingPayload) : List TrackedFinding :=
  let rule := firstMatch rules p.sighting
  match findExisting (rows.map (·.toFinding)) p with
  | none => rows ++ [.created (rows.map (·.toFinding)) scanId p rule now]
  | some existing => rows.map fun f => if f.id = existing.id then f.sighted scanId now p rule else f

/-- Without the events it is the ingest of the finding rows. -/
theorem ingestTracked_toFinding (rules : List SuppressionRule) (scanId now : ℕ)
    (rows : List TrackedFinding) (p : FindingPayload) :
    (ingestTracked rules scanId now rows p).map (·.toFinding) =
      ingestFinding rules scanId now (rows.map (·.toFinding)) p := by
  unfold ingestTracked ingestFinding
  dsimp only
  cases findExisting (rows.map (·.toFinding)) p with
  | none => simp [TrackedFinding.created]
  | some existing =>
      simp only [List.map_map]
      apply List.map_congr_left
      intro f _
      simp only [Function.comp_apply]
      split_ifs <;> rfl

/-- What a rule can find in a resource of the source, with its identity under the outgoing
pepper and under the current one. No two of the hashes collide. -/
structure Identities (ω : Type*) where
  ruleId : ω → String
  previous : ω → String
  previousHash : ω → String
  current : ω → String
  currentHash : ω → String
  previous_injective : Function.Injective previous
  current_injective : Function.Injective current
  disjoint : ∀ o o', previous o ≠ current o'

/-- One match in an engine's batch. -/
structure Report (ω : Type*) where
  occurrence : ω
  resourceLocator : Locator := []
  confidence : Option ℚ := none
  /-- Whether the lease carried the outgoing pepper. -/
  previousPepper : Bool

namespace Identities
variable {ω : Type*} (ids : Identities ω)

def candidate (r : Report ω) : FindingPayload where
  fingerprint := ids.current r.occurrence
  secretHash := ids.currentHash r.occurrence
  ruleId := ids.ruleId r.occurrence
  resourceLocator := r.resourceLocator
  confidence := r.confidence
  previousFingerprint := if r.previousPepper then some (ids.previous r.occurrence) else none
  previousSecretHash := if r.previousPepper then some (ids.previousHash r.occurrence) else none

def Outgoing (o : ω) (f : TrackedFinding) : Prop :=
  f.fingerprint = ids.previous o ∧ f.secretHash = ids.previousHash o

def Incoming (o : ω) (f : TrackedFinding) : Prop :=
  f.fingerprint = ids.current o ∧ f.secretHash = ids.currentHash o

def About (o : ω) (f : TrackedFinding) : Prop :=
  f.fingerprint = ids.previous o ∨ f.fingerprint = ids.current o

instance (o : ω) (f : TrackedFinding) : Decidable (ids.About o f) :=
  inferInstanceAs (Decidable (_ ∨ _))

variable {ids} {o o' : ω} {f : TrackedFinding}

theorem About.unique (h : ids.About o f) (h' : ids.About o' f) : o = o' := by
  rcases h with h | h <;> rcases h' with h' | h'
  · exact ids.previous_injective (h.symm.trans h')
  · exact absurd (h.symm.trans h') (ids.disjoint _ _)
  · exact absurd (h'.symm.trans h) (ids.disjoint _ _)
  · exact ids.current_injective (h.symm.trans h')

theorem secretHash_of_previous (hf : ∃ o, ids.Outgoing o f ∨ ids.Incoming o f)
    (h : f.fingerprint = ids.previous o) : f.secretHash = ids.previousHash o := by
  obtain ⟨o', ⟨hfp, hhash⟩ | ⟨hfp, _⟩⟩ := hf
  · rw [hhash, ids.previous_injective (hfp.symm.trans h)]
  · exact absurd (h.symm.trans hfp) (ids.disjoint _ _)

theorem secretHash_of_current (hf : ∃ o, ids.Outgoing o f ∨ ids.Incoming o f)
    (h : f.fingerprint = ids.current o) : f.secretHash = ids.currentHash o := by
  obtain ⟨o', ⟨hfp, _⟩ | ⟨hfp, hhash⟩⟩ := hf
  · exact absurd (hfp.symm.trans h) (ids.disjoint _ _)
  · rw [hhash, ids.current_injective (hfp.symm.trans h)]

end Identities

/-- The rows of a source, with what the window began from and what has been reported. -/
structure Rotation (ω : Type*) where
  rows : List TrackedFinding
  suppressions : List Suppression := []
  now : ℕ := 0
  /-- The rows when the window opened. -/
  stored : List TrackedFinding
  /-- The rows as everything but ingest left them last. -/
  held : List TrackedFinding
  /-- What has been ingested under both identities. -/
  paired : List ω := []

inductive RotationAction (ω : Type*)
  | ingest (scanId : ℕ) (report : Report ω)
  /-- Analysts, suppression routes, the lapse sweep, reconciliation and time. -/
  | elsewhere (update : TrackedFinding → TrackedFinding) (suppressions : List Suppression)
      (now : ℕ)

/-- What a finding keeps under an ingest. A resolution is refuted by a sighting, as always. -/
structure Carries (live : List SuppressionRule) (d f : TrackedFinding) : Prop where
  id : f.id = d.id
  state : f.state = d.state ∧ f.resolution = d.resolution ∨
    d.state = .resolved ∧ f.state = .opened
  assigneeId : f.assigneeId = d.assigneeId
  notes : f.notes = d.notes
  events : d.events <+: f.events
  hidden : d.HiddenBy live → f.HiddenBy live

namespace Rotation
variable {ω : Type*} (ids : Identities ω) (sourceId : ℕ) (threshold : ℚ)

def live (w : Rotation ω) : List SuppressionRule :=
  applicableSuppressions w.suppressions sourceId w.now

def step (w : Rotation ω) : RotationAction ω → Option (Rotation ω)
  | .ingest scanId report =>
      if (ids.candidate report).Scored threshold then
        some { w with
          rows := ingestTracked (w.live sourceId) scanId w.now w.rows (ids.candidate report)
          paired := if report.previousPepper then report.occurrence :: w.paired else w.paired }
      else some w
  | .elsewhere update suppressions now =>
      let rows := w.rows.map (TrackedFinding.updatedBy update)
      some { w with rows, suppressions, now, held := rows }

def Opens (w : Rotation ω) : Prop :=
  Keyed (w.rows.map (·.toFinding)) ∧ (∀ f ∈ w.rows, ∃ o, ids.Outgoing o f) ∧
    w.stored = w.rows ∧ w.held = w.rows ∧ w.paired = []

/-- The condition under which a finding comes through whole: one that is still stored
under the outgoing identity is reported under both, and one that is hidden is reported
where a live suppression matches it. -/
def Repairable (w : Rotation ω) : RotationAction ω → Prop
  | .ingest _ report => (ids.candidate report).Scored threshold →
      (report.previousPepper ∨
        ∀ f ∈ w.rows, f.fingerprint ≠ ids.previous report.occurrence) ∧
      ((∃ f ∈ w.rows, ids.About report.occurrence f ∧ f.HiddenBy (w.live sourceId)) →
        (firstMatch (w.live sourceId) (ids.candidate report).sighting).isSome)
  | .elsewhere .. => True

end Rotation

theorem findExisting_eq_none {rows : List Finding} {p : FindingPayload}
    (h : findExisting rows p = none) {f : Finding} (hk : Keyed rows) (hf : f ∈ rows) :
    f.fingerprint ≠ p.fingerprint ∧
      (p.previousFingerprint = some f.fingerprint → sameSecret f p = false) := by
  have hnew : f.fingerprint ≠ p.fingerprint := by
    intro heq
    rw [hk.findExisting_of_fingerprint hf heq] at h
    cases h
  refine ⟨hnew, fun hprevious => ?_⟩
  have hnone : rows.find? (fun g => g.fingerprint = p.fingerprint) = none := by
    cases hfind : rows.find? (fun g => g.fingerprint = p.fingerprint) with
    | none => rfl
    | some g =>
        unfold findExisting at h
        rw [hfind] at h
        cases h
  have hsome : (rows.find? fun g => g.fingerprint = f.fingerprint) = some f := by
    have hfound : (rows.find? fun g => g.fingerprint = f.fingerprint).isSome :=
      List.find?_isSome.2 ⟨f, hf, by simp⟩
    obtain ⟨g, hg⟩ := Option.isSome_iff_exists.1 hfound
    have hgfp : g.fingerprint = f.fingerprint := by simpa using List.find?_some hg
    rw [hg, hk.eq_of_fingerprint (List.mem_of_find?_eq_some hg) hf hgfp]
  unfold findExisting at h
  rw [hnone, hprevious] at h
  simp only [Option.bind_some, hsome, Option.filter] at h
  split_ifs at h with hsame
  simpa using hsame

theorem fingerprint_of_findExisting {rows : List Finding} {p : FindingPayload} {f : Finding}
    (h : findExisting rows p = some f) :
    f.fingerprint = p.fingerprint ∨ p.previousFingerprint = some f.fingerprint := by
  unfold findExisting at h
  cases hfind : rows.find? fun f => f.fingerprint = p.fingerprint with
  | some g =>
      rw [hfind] at h
      obtain rfl := Option.some.inj h
      exact Or.inl (by simpa using List.find?_some hfind)
  | none =>
      rw [hfind] at h
      obtain ⟨previous, hprevious, h⟩ := Option.bind_eq_some_iff.1 h
      have hfp : f.fingerprint = previous := by
        simpa using List.find?_some (Option.filter_eq_some_iff.1 h).1
      exact Or.inr (by rw [hprevious, hfp])

theorem applyRule_resolution (f : Finding) (rule : Option SuppressionRule) (now : ℕ) :
    (applyRule f rule now).resolution = f.resolution := by
  cases rule with
  | some rule => rfl
  | none =>
      unfold applyRule release
      split_ifs <;> rfl

theorem applyRule_secretHash (f : Finding) (rule : Option SuppressionRule) (now : ℕ) :
    (applyRule f rule now).secretHash = f.secretHash := by
  cases rule with
  | some rule => rfl
  | none => exact keepsKeys_release.secretHash f

namespace TrackedFinding
variable {scanId now : ℕ} {p : FindingPayload} {rule : Option SuppressionRule} {f : TrackedFinding}

theorem sighted_id : (f.sighted scanId now p rule).id = f.id :=
  (refresh_rekeyed f.toFinding scanId p rule now).1

theorem sighted_fingerprint : (f.sighted scanId now p rule).fingerprint = p.fingerprint :=
  (refresh_rekeyed f.toFinding scanId p rule now).2.1

theorem sighted_secretHash : (f.sighted scanId now p rule).secretHash =
    if f.fingerprint = p.fingerprint then f.secretHash else p.secretHash := by
  have h : (f.sighted scanId now p rule).secretHash = (rekeyed f.toFinding p).secretHash := by
    simp only [sighted, sight, refresh, applyRule_secretHash]
  rw [h, rekeyed]
  split_ifs <;> rfl

/-- What a sighting leaves of a finding, whichever identity it had. -/
theorem carries_sighted {live : List SuppressionRule} (hrule : rule = firstMatch live p.sighting)
    (hhidden : f.HiddenBy live → rule.isSome) : Carries live f (f.sighted scanId now p rule) where
  id := sighted_id
  state := by
    by_cases hresolved : f.state = .resolved
    · apply Or.inr
      refine ⟨hresolved, ?_⟩
      simp [sighted, sight, refresh_state, hresolved]
    · apply Or.inl
      constructor
      · simp [sighted, sight, refresh_state, hresolved]
      · have hkept : (rekeyed f.toFinding p).resolution = f.resolution := by
          unfold rekeyed
          split_ifs <;> rfl
        simp [sighted, sight, refresh, applyRule_resolution, hresolved, hkept]
  assigneeId := rfl
  notes := rfl
  events := List.prefix_append _ _
  hidden := by
    intro h
    obtain ⟨r, hr⟩ := Option.isSome_iff_exists.1 (hhidden h)
    rw [hr] at hrule ⊢
    refine ⟨?_, r, List.mem_of_find?_eq_some hrule.symm, rfl⟩
    simp only [sighted, sight, refresh, applyRule, suppress]
    cases (rekeyed f.toFinding p).suppressedAt <;> rfl

theorem created_fingerprint (rows : List Finding) :
    (created rows scanId p rule now).fingerprint = p.fingerprint :=
  (create_keys rows scanId p rule now).2.1

theorem created_secretHash (rows : List Finding) :
    (created rows scanId p rule now).secretHash = p.secretHash :=
  applyRule_secretHash _ rule now

end TrackedFinding

theorem Carries.refl (live : List SuppressionRule) (f : TrackedFinding) : Carries live f f :=
  ⟨rfl, Or.inl ⟨rfl, rfl⟩, rfl, rfl, List.prefix_refl _, fun h => h⟩

theorem Carries.trans {live : List SuppressionRule} {d f g : TrackedFinding}
    (h : Carries live d f) (h' : Carries live f g) : Carries live d g where
  id := h'.id.trans h.id
  state := by
    rcases h.state with ⟨hstate, hresolution⟩ | ⟨hresolved, hopened⟩
    · rcases h'.state with ⟨hstate', hresolution'⟩ | ⟨hresolved, hopened⟩
      · exact Or.inl ⟨hstate'.trans hstate, hresolution'.trans hresolution⟩
      · exact Or.inr ⟨hstate ▸ hresolved, hopened⟩
    · rcases h'.state with ⟨hstate', _⟩ | ⟨_, hopened'⟩
      · exact Or.inr ⟨hresolved, hstate'.trans hopened⟩
      · exact Or.inr ⟨hresolved, hopened'⟩
  assigneeId := h'.assigneeId.trans h.assigneeId
  notes := h'.notes.trans h.notes
  events := h.events.trans h'.events
  hidden := fun hd => h'.hidden (h.hidden hd)

namespace Rotation
variable {ω : Type*} {ids : Identities ω} {sourceId : ℕ} {threshold : ℚ}

structure Sound (ids : Identities ω) (sourceId : ℕ) (w : Rotation ω) : Prop where
  keyed : Keyed (w.rows.map (·.toFinding))
  identified : ∀ f ∈ w.rows, ∃ o, ids.Outgoing o f ∨ ids.Incoming o f
  single : ∀ o, ∀ f ∈ w.rows, ∀ g ∈ w.rows, ids.About o f → ids.About o g → f = g
  paired : ∀ o ∈ w.paired, ∃ f ∈ w.rows, f.fingerprint = ids.current o
  stored : ∀ d ∈ w.stored, ∃ f ∈ w.rows, f.id = d.id ∧ ∀ o, ids.About o d → ids.About o f
  held : ∀ d ∈ w.held, ∃ f ∈ w.rows,
    Carries (w.live sourceId) d f ∧ ∀ o, ids.About o d → ids.About o f

variable {w w' : Rotation ω}

theorem Sound.eq_of_id (hs : w.Sound ids sourceId) {f g : TrackedFinding} (hf : f ∈ w.rows)
    (hg : g ∈ w.rows) (h : f.id = g.id) : f = g := by
  have hnodup : (w.rows.map fun f : TrackedFinding => f.id).Nodup := by
    have := hs.keyed.ids
    rwa [List.map_map] at this
  exact List.inj_on_of_nodup_map hnodup hf hg h

/-- A report makes a row where there was none, or it is a sighting of the one there is. -/
theorem Sound.ingest_cases (hs : w.Sound ids sourceId) (scanId : ℕ) {report : Report ω}
    (hpaired : report.previousPepper ∨
      ∀ f ∈ w.rows, f.fingerprint ≠ ids.previous report.occurrence) :
    let p := ids.candidate report
    let rule := firstMatch (w.live sourceId) p.sighting
    let rows' := ingestTracked (w.live sourceId) scanId w.now w.rows p
    (∀ f ∈ w.rows, ¬ ids.About report.occurrence f) ∧
        rows' = w.rows ++ [.created (w.rows.map (·.toFinding)) scanId p rule w.now] ∨
      ∃ e ∈ w.rows, ids.About report.occurrence e ∧
        rows' = w.rows.map fun f => if f.id = e.id then f.sighted scanId w.now p rule else f := by
  intro p rule rows'
  cases hfind : findExisting (w.rows.map (·.toFinding)) p with
  | none =>
      refine Or.inl ⟨?_, by simp only [rows', ingestTracked, hfind, rule]⟩
      intro f hf habout
      obtain ⟨hnew, hother⟩ := findExisting_eq_none hfind hs.keyed (List.mem_map_of_mem hf)
      rcases habout with hprevious | hcurrent
      · have hpepper : report.previousPepper = true :=
          hpaired.resolve_right fun hnone => hnone f hf hprevious
        have hsame := hother (by simp [p, Identities.candidate, hpepper, hprevious])
        have hhash := ids.secretHash_of_previous (hs.identified f hf) hprevious
        simp [sameSecret, p, Identities.candidate, hpepper, hhash] at hsame
      · exact hnew hcurrent
  | some existing =>
      obtain ⟨e, he, rfl⟩ := List.mem_map.1 (mem_of_findExisting hfind)
      refine Or.inr ⟨e, he, ?_, by simp only [rows', ingestTracked, hfind, rule]⟩
      rcases fingerprint_of_findExisting hfind with hcurrent | hprevious
      · exact Or.inr hcurrent
      · left
        simp only [p, Identities.candidate] at hprevious
        split_ifs at hprevious with hpepper
        exact (Option.some.inj hprevious).symm

theorem Sound.create (hs : w.Sound ids sourceId) {o : ω} (hnone : ∀ f ∈ w.rows, ¬ ids.About o f)
    {c : TrackedFinding} (hc : ids.Incoming o c)
    (hkeyed : Keyed ((w.rows ++ [c]).map (·.toFinding))) :
    Sound ids sourceId { w with rows := w.rows ++ [c] } where
  keyed := hkeyed
  identified := by
    intro f hf
    rcases List.mem_append.1 hf with hf | hf
    · exact hs.identified f hf
    · exact ⟨o, Or.inr (List.mem_singleton.1 hf ▸ hc)⟩
  single := by
    intro o' f hf g hg hfo hgo
    have habout : ids.About o c := Or.inr hc.1
    rcases List.mem_append.1 hf with hf | hf <;> rcases List.mem_append.1 hg with hg | hg
    · exact hs.single o' f hf g hg hfo hgo
    · rw [List.mem_singleton.1 hg] at hgo
      exact absurd (habout.unique hgo ▸ hfo) (hnone f hf)
    · rw [List.mem_singleton.1 hf] at hfo
      exact absurd (habout.unique hfo ▸ hgo) (hnone g hg)
    · rw [List.mem_singleton.1 hf, List.mem_singleton.1 hg]
  paired := by
    intro o' ho'
    obtain ⟨f, hf, hcurrent⟩ := hs.paired o' ho'
    exact ⟨f, List.mem_append_left _ hf, hcurrent⟩
  stored := by
    intro d hd
    obtain ⟨f, hf, hkept⟩ := hs.stored d hd
    exact ⟨f, List.mem_append_left _ hf, hkept⟩
  held := by
    intro d hd
    obtain ⟨f, hf, hkept⟩ := hs.held d hd
    exact ⟨f, List.mem_append_left _ hf, hkept⟩

theorem Sound.resight (hs : w.Sound ids sourceId) {o : ω} {e : TrackedFinding} (he : e ∈ w.rows)
    (heo : ids.About o e) {seen : TrackedFinding → TrackedFinding}
    (hseen : ids.Incoming o (seen e)) (hcarries : Carries (w.live sourceId) e (seen e))
    (hkeyed : Keyed ((w.rows.map fun f => if f.id = e.id then seen f else f).map
      (·.toFinding))) :
    Sound ids sourceId
      { w with rows := w.rows.map fun f => if f.id = e.id then seen f else f } := by
  have habout : ids.About o (seen e) := Or.inr hseen.1
  have hrow : ∀ f ∈ w.rows, (f = e ∧ (if f.id = e.id then seen f else f) = seen e) ∨
      (f ≠ e ∧ (if f.id = e.id then seen f else f) = f) := by
    intro f hf
    by_cases hid : f.id = e.id
    · obtain rfl := hs.eq_of_id hf he hid
      exact Or.inl ⟨rfl, if_pos rfl⟩
    · exact Or.inr ⟨fun heq => hid (by rw [heq]), if_neg hid⟩
  have hkept : ∀ f ∈ w.rows, Carries (w.live sourceId) f (if f.id = e.id then seen f else f) ∧
      ∀ o', ids.About o' f → ids.About o' (if f.id = e.id then seen f else f) := by
    intro f hf
    rcases hrow f hf with ⟨rfl, hnew⟩ | ⟨_, hsame⟩
    · rw [hnew]
      exact ⟨hcarries, fun o' ho' => heo.unique ho' ▸ habout⟩
    · rw [hsame]
      exact ⟨Carries.refl _ f, fun _ ho' => ho'⟩
  constructor
  · exact hkeyed
  · intro f' hf'
    obtain ⟨f, hf, rfl⟩ := List.mem_map.1 hf'
    rcases hrow f hf with ⟨_, hnew⟩ | ⟨_, hsame⟩
    · rw [hnew]
      exact ⟨o, Or.inr hseen⟩
    · rw [hsame]
      exact hs.identified f hf
  · intro o' f' hf' g' hg' hfo hgo
    obtain ⟨f, hf, rfl⟩ := List.mem_map.1 hf'
    obtain ⟨g, hg, rfl⟩ := List.mem_map.1 hg'
    rcases hrow f hf with ⟨rfl, hnew⟩ | ⟨hf₀, hsame⟩ <;>
      rcases hrow g hg with ⟨rfl, hnew'⟩ | ⟨hg₀, hsame'⟩
    · rfl
    · rw [hnew] at hfo
      rw [hsame'] at hgo
      exact absurd (hs.single o g hg f hf (hfo.unique habout ▸ hgo) heo) hg₀
    · rw [hsame] at hfo
      rw [hnew'] at hgo
      exact absurd (hs.single o f hf g hg (hgo.unique habout ▸ hfo) heo) hf₀
    · rw [hsame] at hfo ⊢
      rw [hsame'] at hgo ⊢
      exact hs.single o' f hf g hg hfo hgo
  · intro o' ho'
    obtain ⟨f, hf, hcurrent⟩ := hs.paired o' ho'
    refine ⟨_, List.mem_map_of_mem hf, ?_⟩
    rcases hrow f hf with ⟨rfl, hnew⟩ | ⟨_, hsame⟩
    · rw [hnew, hseen.1, heo.unique (Or.inr hcurrent)]
    · rw [hsame, hcurrent]
  · intro d hd
    obtain ⟨f, hf, hid, habout'⟩ := hs.stored d hd
    obtain ⟨hcarried, hstill⟩ := hkept f hf
    exact ⟨_, List.mem_map_of_mem hf, hcarried.id.trans hid,
      fun o' ho' => hstill o' (habout' o' ho')⟩
  · intro d hd
    obtain ⟨f, hf, hcarries', habout'⟩ := hs.held d hd
    obtain ⟨hcarried, hstill⟩ := hkept f hf
    exact ⟨_, List.mem_map_of_mem hf, hcarries'.trans hcarried,
      fun o' ho' => hstill o' (habout' o' ho')⟩

theorem Sound.ingest (hs : w.Sound ids sourceId) {scanId : ℕ} {report : Report ω}
    (hscored : (ids.candidate report).Scored threshold)
    (hguard : w.Repairable ids sourceId threshold (.ingest scanId report)) :
    let rows' := ingestTracked (w.live sourceId) scanId w.now w.rows (ids.candidate report)
    Sound ids sourceId { w with rows := rows' } ∧
      ∃ f ∈ rows', f.fingerprint = ids.current report.occurrence := by
  obtain ⟨hpaired, hhidden⟩ := hguard hscored
  intro rows'
  have hkeyed : Keyed (rows'.map (·.toFinding)) := by
    rw [ingestTracked_toFinding]
    exact (ingestFinding_spec hs.keyed _ scanId w.now _).1
  rcases hs.ingest_cases scanId hpaired with ⟨hnone, hrows⟩ | ⟨e, he, heo, hrows⟩
  · simp only [rows', hrows] at hkeyed ⊢
    refine ⟨hs.create hnone ⟨?_, ?_⟩ hkeyed, _,
      List.mem_append_right _ (List.mem_singleton_self _), ?_⟩
    · exact TrackedFinding.created_fingerprint _
    · exact TrackedFinding.created_secretHash _
    · exact TrackedFinding.created_fingerprint _
  · simp only [rows', hrows] at hkeyed ⊢
    refine ⟨hs.resight he heo ⟨TrackedFinding.sighted_fingerprint, ?_⟩ ?_ hkeyed,
      _, List.mem_map_of_mem he, ?_⟩
    · rw [TrackedFinding.sighted_secretHash]
      split_ifs with hsame
      · exact ids.secretHash_of_current (hs.identified e he) hsame
      · rfl
    · exact TrackedFinding.carries_sighted rfl fun h => hhidden ⟨e, he, heo, h⟩
    · rw [if_pos rfl]
      exact TrackedFinding.sighted_fingerprint

theorem Sound.elsewhere (hs : w.Sound ids sourceId) (update : TrackedFinding → TrackedFinding)
    (suppressions : List Suppression) (now : ℕ) :
    let rows := w.rows.map (TrackedFinding.updatedBy update)
    Sound ids sourceId { w with rows, suppressions, now, held := rows } := by
  intro rows
  have hkeys : ∀ g : Finding → ℕ × String, (∀ f : TrackedFinding,
      g (f.updatedBy update).toFinding = g f.toFinding) →
      (rows.map (·.toFinding)).map g = (w.rows.map (·.toFinding)).map g := by
    intro g hg
    simp only [rows, List.map_map]
    exact List.map_congr_left fun f _ => hg f
  have hboth := hkeys (fun f => (f.id, f.fingerprint)) fun _ => rfl
  have hids : (rows.map (·.toFinding)).map (·.id) = (w.rows.map (·.toFinding)).map (·.id) := by
    simpa [Function.comp_def] using congrArg (List.map Prod.fst) hboth
  have hfps : (rows.map (·.toFinding)).map (·.fingerprint) =
      (w.rows.map (·.toFinding)).map (·.fingerprint) := by
    simpa [Function.comp_def] using congrArg (List.map Prod.snd) hboth
  constructor
  · constructor
    · rw [hids]
      exact hs.keyed.ids
    · rw [hfps]
      exact hs.keyed.fingerprints
  · intro f' hf'
    obtain ⟨f, hf, rfl⟩ := List.mem_map.1 hf'
    exact hs.identified f hf
  · intro o f' hf' g' hg' hfo hgo
    obtain ⟨f, hf, rfl⟩ := List.mem_map.1 hf'
    obtain ⟨g, hg, rfl⟩ := List.mem_map.1 hg'
    rw [hs.single o f hf g hg hfo hgo]
  · intro o ho
    obtain ⟨f, hf, hcurrent⟩ := hs.paired o ho
    exact ⟨_, List.mem_map_of_mem hf, hcurrent⟩
  · intro d hd
    obtain ⟨f, hf, hid, habout⟩ := hs.stored d hd
    exact ⟨_, List.mem_map_of_mem hf, hid, habout⟩
  · intro d hd
    exact ⟨d, hd, Carries.refl _ d, fun _ ho => ho⟩

theorem Sound.step (hs : w.Sound ids sourceId) {a : RotationAction ω}
    (hguard : w.Repairable ids sourceId threshold a)
    (h : w.step ids sourceId threshold a = some w') : w'.Sound ids sourceId := by
  cases a with
  | ingest scanId report =>
      simp only [Rotation.step] at h
      split_ifs at h with hscored hpepper
      · obtain rfl := Option.some.inj h
        obtain ⟨hsound, f, hf, hcurrent⟩ := hs.ingest hscored hguard
        refine { hsound with paired := ?_ }
        intro o ho
        rcases List.mem_cons.1 ho with rfl | ho
        · exact ⟨f, hf, hcurrent⟩
        · exact hsound.paired o ho
      · obtain rfl := Option.some.inj h
        exact { (hs.ingest hscored hguard).1 with }
      · obtain rfl := Option.some.inj h
        exact hs
  | elsewhere update suppressions now =>
      obtain rfl := Option.some.inj h
      exact hs.elsewhere update suppressions now

theorem Opens.sound (h : w.Opens ids) : w.Sound ids sourceId := by
  obtain ⟨hkeyed, hrows, hstored, hheld, hpaired⟩ := h
  have honly : ∀ o, ∀ f ∈ w.rows, ids.About o f → f.fingerprint = ids.previous o := by
    intro o f hf habout
    obtain ⟨o', hfp, _⟩ := hrows f hf
    rwa [habout.unique (Or.inl hfp)]
  constructor
  · exact hkeyed
  · intro f hf
    obtain ⟨o, ho⟩ := hrows f hf
    exact ⟨o, Or.inl ho⟩
  · intro o f hf g hg hfo hgo
    have hnodup : (w.rows.map fun f : TrackedFinding => f.fingerprint).Nodup := by
      have := hkeyed.fingerprints
      rwa [List.map_map] at this
    apply List.inj_on_of_nodup_map hnodup hf hg
    rw [honly o f hf hfo, honly o g hg hgo]
  · rw [hpaired]
    exact fun o ho => (by cases ho)
  · rw [hstored]
    exact fun d hd => ⟨d, hd, rfl, fun _ ho => ho⟩
  · rw [hheld]
    exact fun d hd => ⟨d, hd, Carries.refl _ d, fun _ ho => ho⟩

/-- Whatever has been reported under both identities is one row, keyed by the current
one: the row that was stored before, with what analysts made of it, and hidden if a live
suppression hid it. -/
theorem rotation_carries_decisions
    (hw : Machine.Reachable (step ids sourceId threshold) (Repairable ids sourceId threshold)
      (Opens ids) w) {o : ω} (ho : o ∈ w.paired) :
    ∃ f ∈ w.rows, f.fingerprint = ids.current o ∧ (∀ g ∈ w.rows, ids.About o g → g = f) ∧
      (∀ d ∈ w.stored, ids.About o d → f.id = d.id) ∧
      ∀ d ∈ w.held, ids.About o d → Carries (w.live sourceId) d f := by
  have hs : w.Sound ids sourceId := hw.invariant (fun _ => Opens.sound)
    fun _ _ _ hs hguard hstep => hs.step hguard hstep
  obtain ⟨f, hf, hcurrent⟩ := hs.paired o ho
  have hfo : ids.About o f := Or.inr hcurrent
  refine ⟨f, hf, hcurrent, ?_, ?_, ?_⟩
  · intro g hg hgo
    exact hs.single o g hg f hf hgo hfo
  · intro d hd hdo
    obtain ⟨g, hg, hid, habout⟩ := hs.stored d hd
    rw [hs.single o f hf g hg hfo (habout o hdo), hid]
  · intro d hd hdo
    obtain ⟨g, hg, hcarries, habout⟩ := hs.held d hd
    rw [hs.single o f hf g hg hfo (habout o hdo)]
    exact hcarries

theorem ingest_batch {scanId : ℕ} (reports : List (Report ω))
    (h : reports.foldlM (fun w r => w.step ids sourceId threshold (.ingest scanId r)) w = some w') :
    w'.rows.map (·.toFinding) = ingestFindings w.suppressions sourceId scanId w.now threshold
      (w.rows.map (·.toFinding)) (reports.map ids.candidate) := by
  induction reports generalizing w with
  | nil =>
      obtain rfl := Option.some.inj h
      rfl
  | cons r reports ih =>
      rw [List.foldlM_cons] at h
      obtain ⟨w₁, hstep, hrest⟩ := Option.bind_eq_some_iff.1 h
      have hbatch := ih hrest
      simp only [Rotation.step] at hstep
      unfold ingestFindings at hbatch ⊢
      rw [List.map_cons, List.filter_cons]
      by_cases hscored : (ids.candidate r).Scored threshold
      · rw [if_pos hscored] at hstep ⊢
        obtain rfl := Option.some.inj hstep
        rw [ingestTracked_toFinding] at hbatch
        exact hbatch
      · rw [if_neg hscored] at hstep ⊢
        obtain rfl := Option.some.inj hstep
        exact hbatch

/-! A window over one finding, which an analyst has called a false positive. -/

def rotatedKey : Identities Unit where
  ruleId _ := "aws-key"
  previous _ := "old"
  previousHash _ := "old-hash"
  current _ := "new"
  currentHash _ := "new-hash"
  previous_injective _ _ _ := rfl
  current_injective _ _ _ := rfl
  disjoint _ _ := by decide

def judgedFinding : TrackedFinding where
  id := 1
  fingerprint := "old"
  secretHash := "old-hash"
  ruleId := "aws-key"
  state := .falsePositive
  lastSeenScanId := 1
  assigneeId := some 7
  notes := some "a test key"

def openedOn (suppressions : List Suppression) : Rotation Unit where
  rows := [judgedFinding]
  suppressions
  stored := [judgedFinding]
  held := [judgedFinding]

theorem opens_openedOn (suppressions : List Suppression) :
    (openedOn suppressions).Opens rotatedKey := by
  refine ⟨⟨by simp [openedOn], by simp [openedOn]⟩, ?_, rfl, rfl, rfl⟩
  intro f hf
  obtain rfl := List.mem_singleton.1 hf
  exact ⟨(), rfl, rfl⟩

instance (w : Rotation ω) (a : RotationAction ω) :
    Decidable (w.Repairable ids sourceId threshold a) :=
  match a with
  | .ingest .. => inferInstanceAs (Decidable (_ → (_ ∨ ∀ f ∈ w.rows, _) ∧ ((∃ f ∈ w.rows, _) → _)))
  | .elsewhere .. => .isTrue trivial

def reportedBy (scanId : ℕ) (previousPepper : Bool) : RotationAction Unit :=
  .ingest scanId { occurrence := (), previousPepper }

def wholeRule : Suppression where
  id := 5
  scope := .rule
  pattern := "aws-key"

theorem rotation_carries_a_judgement : ∃ w : Rotation Unit, ∃ f ∈ w.rows,
    w.rows.length = 1 ∧ f.fingerprint = "new" ∧ f.id = 1 ∧ f.state = .falsePositive ∧
      f.assigneeId = some 7 ∧ f.notes = some "a test key" ∧ f.HiddenBy (w.live 1) := by
  let hide (f : TrackedFinding) : TrackedFinding :=
    { f with suppressedAt := some 3, suppressedById := some 5 }
  have hrun : (Machine.run (step rotatedKey 1 0) (Repairable rotatedKey 1 0) (openedOn [])
      [.elsewhere hide [wholeRule] 3, reportedBy 2 true, reportedBy 3 false]).any fun w =>
        w.paired = [()] ∧ w.rows.length = 1 ∧ ∃ d ∈ w.held, rotatedKey.About () d ∧ d.id = 1 ∧
          d.state = .falsePositive ∧ d.assigneeId = some 7 ∧ d.notes = some "a test key" ∧
          d.HiddenBy (w.live 1) := by decide +kernel
  have hopen : Machine.Reachable (step rotatedKey 1 0) (Repairable rotatedKey 1 0)
      (Opens rotatedKey) (openedOn []) := .start (opens_openedOn [])
  obtain ⟨w, hw, hpaired, hlength, d, hd, hdo, hid, hstate, hassignee, hnotes, hhidden⟩ :=
    hopen.exists_of_run hrun
  have ho : () ∈ w.paired := by simp [hpaired]
  obtain ⟨f, hf, hcurrent, _, _, hcarries⟩ := rotation_carries_decisions hw ho
  have hkept := hcarries d hd hdo
  refine ⟨w, f, hf, hlength, hcurrent, hkept.id.trans hid, ?_, hkept.assigneeId.trans hassignee,
    hkept.notes.trans hnotes, hkept.hidden hhidden⟩
  rcases hkept.state with ⟨hsame, _⟩ | ⟨hresolved, _⟩
  · exact hsame.trans hstate
  · rw [hstate] at hresolved
    cases hresolved

/-- A scan whose lease lacks the outgoing pepper reports the key first. Once the key is
reported under both identities there are two findings of it, and the one with the current
identity has nothing of what the analyst left on the other. -/
theorem rotation_can_split_a_finding : ∃ w : Rotation Unit,
    Machine.Reachable (step rotatedKey 1 0) (fun _ _ => True) (Opens rotatedKey) w ∧
      () ∈ w.paired ∧ ∃ f ∈ w.rows, ∃ g ∈ w.rows, f ≠ g ∧ rotatedKey.About () f ∧
        rotatedKey.About () g ∧ g.state = .falsePositive ∧ f.fingerprint = "new" ∧
        f.state = .opened ∧ f.assigneeId = none ∧ f.notes = none := by
  have hrun : (Machine.run (step rotatedKey 1 0) (fun _ _ => True) (openedOn [])
      [reportedBy 2 false, reportedBy 3 true]).any fun w =>
        w.paired = [()] ∧ ∃ f ∈ w.rows, ∃ g ∈ w.rows, f ≠ g ∧ rotatedKey.About () f ∧
          rotatedKey.About () g ∧ g.state = .falsePositive ∧ f.fingerprint = "new" ∧
          f.state = .opened ∧ f.assigneeId = none ∧ f.notes = none := by decide +kernel
  have hopen : Machine.Reachable (step rotatedKey 1 0) (fun _ _ => True) (Opens rotatedKey)
      (openedOn []) := .start (opens_openedOn [])
  obtain ⟨w, hw, hpaired, hrows⟩ := hopen.exists_of_run hrun
  exact ⟨w, hw, by simp [hpaired], hrows⟩

/-- A suppression of the outgoing fingerprint hides the finding until it is re-keyed. -/
theorem rotation_can_release_a_finding : ∃ w w' : Rotation Unit,
    (∃ d ∈ w.rows, d.HiddenBy (w.live 1)) ∧
      w.step rotatedKey 1 0 (reportedBy 2 true) = some w' ∧ w'.live 1 = w.live 1 ∧
      ∃ f ∈ w'.rows, f.id = 1 ∧ f.suppressedAt = none := by
  let hidden : TrackedFinding :=
    { judgedFinding with suppressedAt := some 3, suppressedById := some 6 }
  let rule : Suppression := { id := 6, scope := .fingerprint, pattern := "old" }
  refine ⟨{ openedOn [rule] with rows := [hidden], held := [hidden] }, _, ?_, rfl, rfl, ?_⟩
  · exact ⟨hidden, List.mem_singleton_self _, by decide⟩
  · decide +kernel

end Rotation

end IcebergSST
