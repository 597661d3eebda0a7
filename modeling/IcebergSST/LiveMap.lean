import IcebergSST.BatchedIngest

/-!
# The live map answers as a lookup would

The map of a batch and the rows in the session agree on every identity that the batch can
ask for, so the loop takes each payload to the row that a lookup of its own would have
found. What a lookup does besides is to write back: without it a batch can be refused for
an identity that one of its rows has already given up. Both are refused where the scan
re-opens a row for the second time.
-/

namespace IcebergSST

namespace Ingested
variable {s : IngestSettings} {p : ReportedFinding} {w : Ingested} {f g : IngestedFinding}

def Keyed (w : Ingested) : Prop := IcebergSST.Keyed (w.rows.map (·.toFinding))

def step (s : IngestSettings) (w : Ingested) (p : ReportedFinding) : Ingested :=
  w.sight s p (resolveExisting w.find p)

def run (s : IngestSettings) (w : Ingested) (payloads : List ReportedFinding) : Ingested :=
  payloads.foldl (step s) w

@[simp] theorem run_nil : w.run s [] = w := rfl

theorem run_cons (payloads : List ReportedFinding) :
    w.run s (p :: payloads) = (w.step s p).run s payloads := rfl

theorem keys_fst (w : Ingested) : w.keys.map Prod.fst = w.rows.map (·.id) := by
  simp [keys]

theorem keyed_iff : w.Keyed ↔ (w.keys.map Prod.fst).Nodup ∧ (w.keys.map Prod.snd).Nodup := by
  have hfst : (w.rows.map (·.toFinding)).map (·.id) = w.keys.map Prod.fst := by simp [keys]
  have hsnd : (w.rows.map (·.toFinding)).map (·.fingerprint) = w.keys.map Prod.snd := by
    simp [keys]
  constructor
  · intro h
    exact ⟨hfst ▸ h.ids, hsnd ▸ h.fingerprints⟩
  · rintro ⟨hids, hfps⟩
    exact ⟨hfst ▸ hids, hsnd ▸ hfps⟩

theorem mem_keys {id : ℕ} {fp : String} :
    (id, fp) ∈ w.keys ↔ ∃ f ∈ w.rows, f.id = id ∧ f.fingerprint = fp := by
  simp [keys]

theorem Keyed.rows_ids (hw : w.Keyed) : (w.rows.map (·.id)).Nodup :=
  keys_fst w ▸ (keyed_iff.1 hw).1

theorem Keyed.rows_fingerprints (hw : w.Keyed) : (w.rows.map (·.fingerprint)).Nodup := by
  simpa [keys, Function.comp_def] using (keyed_iff.1 hw).2

theorem Keyed.eq_of_id (hw : w.Keyed) (hf : f ∈ w.rows) (hg : g ∈ w.rows) (h : f.id = g.id) :
    f = g :=
  List.inj_on_of_nodup_map hw.rows_ids hf hg h

theorem Keyed.find_eq_some (hw : w.Keyed) {fp : String} :
    w.find fp = some f ↔ f ∈ w.rows ∧ f.fingerprint = fp :=
  UniqueColumn.find?_key hw.rows_fingerprints

theorem Keyed.find_of_keys (hw : w.Keyed) {fp : String} {found : Option ℕ}
    (h : ∀ id, found = some id ↔ (id, fp) ∈ w.keys) :
    (found.bind fun id => w.rows.find? fun f => f.id = id) = w.find fp := by
  apply Option.ext
  intro f
  rw [hw.find_eq_some, Option.bind_eq_some_iff]
  constructor
  · rintro ⟨id, hid, hfind⟩
    obtain ⟨g, hg, rfl, hfp⟩ := mem_keys.1 ((h id).1 hid)
    obtain ⟨hf, hfid⟩ := (UniqueColumn.find?_key hw.rows_ids).1 hfind
    exact ⟨hf, hw.eq_of_id hf hg hfid ▸ hfp⟩
  · rintro ⟨hf, hfp⟩
    exact ⟨f.id, (h f.id).2 (mem_keys.2 ⟨f, hf, rfl, hfp⟩),
      (UniqueColumn.find?_key hw.rows_ids).2 ⟨hf, rfl⟩⟩

end Ingested

section Resolve
variable {p : ReportedFinding} {w : Ingested} {f : IngestedFinding}
  {lookup lookup' : String → Option IngestedFinding}

theorem resolveExisting_congr (h : lookup p.fingerprint = lookup' p.fingerprint)
    (hprevious : ∀ previous ∈ p.previousFingerprint, lookup previous = lookup' previous) :
    resolveExisting lookup p = resolveExisting lookup' p := by
  unfold resolveExisting
  rw [h]
  cases lookup' p.fingerprint with
  | some f => rfl
  | none =>
      cases hp : p.previousFingerprint with
      | none => rfl
      | some previous => simp only [Option.bind_some, hprevious previous hp]

/-- What is known of the row that a payload is taken to. -/
inductive Resolves (w : Ingested) (p : ReportedFinding) : Option (IngestedFinding × Bool) → Prop
  | created (hnew : ∀ f ∈ w.rows, f.fingerprint ≠ p.fingerprint) : Resolves w p none
  | known {f : IngestedFinding} (hf : f ∈ w.rows) (hfp : f.fingerprint = p.fingerprint) :
      Resolves w p (some (f, false))
  | outgoing {f : IngestedFinding} (hf : f ∈ w.rows)
      (hnew : ∀ f ∈ w.rows, f.fingerprint ≠ p.fingerprint)
      (hprevious : p.previousFingerprint = some f.fingerprint)
      (hsame : sameSecret f.toFinding p.toFindingPayload) : Resolves w p (some (f, true))

theorem resolves_find (w : Ingested) (p : ReportedFinding) :
    Resolves w p (resolveExisting w.find p) := by
  unfold resolveExisting
  cases hfind : w.find p.fingerprint with
  | some f => exact .known (List.mem_of_find?_eq_some hfind) (by simpa using List.find?_some hfind)
  | none =>
      have hnew : ∀ f ∈ w.rows, f.fingerprint ≠ p.fingerprint := by
        intro f hf
        simpa using List.find?_eq_none.1 hfind f hf
      cases hprevious : p.previousFingerprint with
      | none => exact .created hnew
      | some previous =>
          simp only [Option.bind_some]
          cases hold : (w.find previous).filter
              fun f => sameSecret f.toFinding p.toFindingPayload with
          | none => exact .created hnew
          | some f =>
              obtain ⟨hfound, hsame⟩ := Option.filter_eq_some_iff.1 hold
              have hfp : f.fingerprint = previous := by simpa using List.find?_some hfound
              exact .outgoing (List.mem_of_find?_eq_some hfound) hnew (by rw [hprevious, hfp]) hsame

end Resolve

/-- One payload, against the rows before and after it. -/
structure Ingested.Takes (s : IngestSettings) (p : ReportedFinding) (w w' : Ingested) : Prop where
  seen : ∃ f ∈ w'.rows, f.fingerprint = p.fingerprint ∧ f.lastSeenScanId = s.scanId
  kept : ∀ f ∈ w.rows, ∃ g ∈ w'.rows, g.id = f.id ∧
    (g.state = f.state ∨ f.state = .resolved ∧ g.state = .opened) ∧
    (g.fingerprint = f.fingerprint ∧ g.secretHash = f.secretHash ∨
      p.previousFingerprint = some f.fingerprint ∧
        (p.previousSecretHash = none ∨ p.previousSecretHash = some f.secretHash) ∧
        g.fingerprint = p.fingerprint ∧ g.secretHash = p.secretHash)
  created : ∀ g ∈ w'.rows, (∀ f ∈ w.rows, f.id ≠ g.id) →
    g.state = .opened ∧ g.fingerprint = p.fingerprint

namespace Ingested
variable {s : IngestSettings} {p : ReportedFinding} {w : Ingested} {f : IngestedFinding}
  {existing : Option (IngestedFinding × Bool)}

theorem keys_sight_none (s : IngestSettings) (p : ReportedFinding) (w : Ingested) :
    (w.sight s p none).keys = w.keys ++ [(w.newId s, p.fingerprint)] := by
  simp [keys, sight]

theorem keys_sight_known (s : IngestSettings) (p : ReportedFinding) (w : Ingested)
    (f : IngestedFinding) : (w.sight s p (some (f, false))).keys = w.keys := by
  simp only [keys, sight, List.map_map]
  apply List.map_congr_left
  intro g hg
  by_cases h : g.id = f.id <;> simp [h]

theorem keys_sight_outgoing (s : IngestSettings) (p : ReportedFinding) (w : Ingested)
    (f : IngestedFinding) : (w.sight s p (some (f, true))).keys =
      w.keys.map fun r => if r.1 = f.id then (r.1, p.fingerprint) else r := by
  simp only [keys, sight, List.map_map]
  apply List.map_congr_left
  intro g hg
  by_cases h : g.id = f.id <;> simp [h]

theorem keys_sight_fst (e : IngestedFinding × Bool) :
    (w.sight s p (some e)).keys.map Prod.fst = w.keys.map Prod.fst := by
  obtain ⟨f, rekeyed⟩ := e
  simp only [keys, sight, List.map_map]
  apply List.map_congr_left
  intro g hg
  by_cases h : g.id = f.id <;> cases rekeyed <;> simp [h]

theorem Keyed.sight (hw : w.Keyed) (h : Resolves w p existing) : (w.sight s p existing).Keyed := by
  obtain ⟨hids, hfps⟩ := keyed_iff.1 hw
  apply keyed_iff.2
  cases h with
  | created hnew =>
      rw [keys_sight_none]
      constructor
      · rw [List.map_append, List.map_singleton, ← List.concat_eq_append]
        apply hids.concat
        rw [keys_fst]
        exact s.newId.fresh _
      · rw [List.map_append, List.map_singleton, ← List.concat_eq_append]
        apply hfps.concat
        intro hmem
        obtain ⟨f, hf, hfp⟩ : ∃ f ∈ w.rows, f.fingerprint = p.fingerprint := by
          simpa [keys] using hmem
        exact hnew f hf hfp
  | known hf hfp =>
      rw [keys_sight_known]
      exact ⟨hids, hfps⟩
  | @outgoing f hf hnew hprevious hsame =>
      rw [keys_sight_fst]
      refine ⟨hids, ?_⟩
      rw [keys_sight_outgoing, List.map_map]
      -- two rows that end on one fingerprint: neither had the payload's
      apply List.Nodup.map_on _ (List.Nodup.of_map _ hids)
      intro r hr r' hr' heq
      obtain ⟨g, hg, hgid, hgfp⟩ := mem_keys.1 hr
      obtain ⟨g', hg', hgid', hgfp'⟩ := mem_keys.1 hr'
      apply List.inj_on_of_nodup_map hids hr hr'
      by_cases h : r.1 = f.id <;> by_cases h' : r'.1 = f.id
      · exact h.trans h'.symm
      · simp only [Function.comp_apply, if_pos h, if_neg h'] at heq
        exact absurd (hgfp'.trans heq.symm) (hnew g' hg')
      · simp only [Function.comp_apply, if_neg h, if_pos h'] at heq
        exact absurd (hgfp.trans heq) (hnew g hg)
      · simp only [Function.comp_apply, if_neg h, if_neg h'] at heq
        exact congrArg Prod.fst (List.inj_on_of_nodup_map hfps hr hr' heq)

theorem mem_sight_some {g : IngestedFinding} {rekeyed : Bool} :
    g ∈ (w.sight s p (some (f, rekeyed))).rows ↔
      ∃ g' ∈ w.rows, (if g'.id = f.id then
        refreshRow s p (firstMatch s.rules p.sighting) (if rekeyed then g'.rekey s p else g')
        else g') = g := by
  simp [sight]

theorem takes_sight (hw : w.Keyed) (h : Resolves w p existing) :
    Takes s p w (w.sight s p existing) := by
  cases h with
  | created hnew =>
      constructor
      · exact ⟨createRow s (w.newId s) p (firstMatch s.rules p.sighting), by simp [Ingested.sight],
          by simp, by simp⟩
      · intro f hf
        exact ⟨f, List.mem_append_left _ hf, rfl, Or.inl rfl, Or.inl ⟨rfl, rfl⟩⟩
      · intro g hg hother
        rcases List.mem_append.1 hg with hg | hg
        · exact absurd rfl (hother g hg)
        · rw [List.mem_singleton.1 hg]
          exact ⟨createRow_state, createRow_fingerprint⟩
  | @known f hf hfp =>
      constructor
      · exact ⟨_, mem_sight_some.2 ⟨f, hf, rfl⟩, by simp [hfp], by simp⟩
      · intro g hg
        refine ⟨_, mem_sight_some.2 ⟨g, hg, rfl⟩, ?_⟩
        by_cases hid : g.id = f.id
        · by_cases hresolved : g.state = .resolved <;> simp [hid, refreshRow_state, hresolved]
        · simp [hid]
      · intro g hg hother
        obtain ⟨g', hg', rfl⟩ := mem_sight_some.1 hg
        apply absurd _ (hother g' hg')
        by_cases hid : g'.id = f.id <;> simp [hid]
  | @outgoing f hf hnew hprevious hsame =>
      constructor
      · exact ⟨_, mem_sight_some.2 ⟨f, hf, rfl⟩, by simp, by simp⟩
      · intro g hg
        refine ⟨_, mem_sight_some.2 ⟨g, hg, rfl⟩, ?_⟩
        by_cases hid : g.id = f.id
        · obtain rfl := hw.eq_of_id hg hf hid
          have hstate : (g.rekey s p).state = g.state := rfl
          have hhash : (g.rekey s p).secretHash = p.secretHash := rfl
          have hold : p.previousSecretHash = none ∨ p.previousSecretHash = some g.secretHash := by
            cases hprev : p.previousSecretHash with
            | none => exact Or.inl rfl
            | some hash =>
                have heq : hash = g.secretHash := by
                  simpa [sameSecret, hprev] using hsame
                exact Or.inr (by rw [heq])
          by_cases hresolved : g.state = .resolved <;>
            simp [refreshRow_state, hstate, hresolved, hhash, hprevious, hold]
        · simp [hid]
      · intro g hg hother
        obtain ⟨g', hg', rfl⟩ := mem_sight_some.1 hg
        apply absurd _ (hother g' hg')
        by_cases hid : g'.id = f.id <;> simp [hid]

/-- A payload breaks the index of system events only by re-opening a second time. -/
theorem eventsUnique_sight (hw : w.Keyed) (h : Resolves w p existing) :
    (w.sight s p existing).EventsUnique ↔ w.EventsUnique ∧
      ∀ e ∈ existing, e.1.state = .resolved → (.reopened, s.scanId) ∉ systemKeys e.1.events := by
  cases existing with
  | none =>
      constructor
      · intro hunique
        exact ⟨fun f hf => hunique f (List.mem_append_left _ hf), fun e he => by cases he⟩
      · rintro ⟨hunique, -⟩ f hf
        rcases List.mem_append.1 hf with hf | hf
        · exact hunique f hf
        · rw [List.mem_singleton.1 hf, systemKeys_createRow]
          exact List.nodup_nil
  | some e =>
      obtain ⟨f, rekeyed⟩ := e
      have hf : f ∈ w.rows := by cases h <;> assumption
      have hkeys : systemKeys (refreshRow s p (firstMatch s.rules p.sighting)
          (if rekeyed then f.rekey s p else f)).events = systemKeys f.events ++
            if f.state = .resolved then [(.reopened, s.scanId)] else [] := by
        rw [systemKeys_refreshRow]
        cases rekeyed <;> rfl
      constructor
      · intro hunique
        have hnodup := hunique _ (mem_sight_some.2 ⟨f, hf, rfl⟩)
        rw [if_pos rfl, hkeys, List.nodup_append] at hnodup
        refine ⟨fun g hg => ?_, fun e he hresolved hbefore => ?_⟩
        · by_cases hid : g.id = f.id
          · rw [hw.eq_of_id hg hf hid]
            exact hnodup.1
          · have hother := hunique _ (mem_sight_some.2 ⟨g, hg, rfl⟩)
            rwa [if_neg hid] at hother
        · obtain rfl := Option.some.inj he
          rw [if_pos hresolved] at hnodup
          exact hnodup.2.2 _ hbefore _ (List.mem_singleton_self _) rfl
      · rintro ⟨hunique, honce⟩ g' hg'
        obtain ⟨g, hg, rfl⟩ := mem_sight_some.1 hg'
        by_cases hid : g.id = f.id
        · obtain rfl := hw.eq_of_id hg hf hid
          rw [if_pos rfl, hkeys]
          split_ifs with hresolved
          · rw [← List.concat_eq_append]
            exact (hunique g hg).concat (honce _ rfl hresolved)
          · rw [List.append_nil]
            exact hunique g hg
        · rw [if_neg hid]
          exact hunique g hg

theorem findExisting_toFinding (w : Ingested) (p : ReportedFinding) :
    findExisting (w.rows.map (·.toFinding)) p.toFindingPayload =
      (resolveExisting w.find p).map (·.1.toFinding) := by
  have hfind : ∀ fp : String, (w.rows.map (·.toFinding)).find? (fun f => f.fingerprint = fp) =
      (w.find fp).map (·.toFinding) := fun fp => List.find?_map
  unfold findExisting resolveExisting
  rw [hfind]
  cases w.find p.fingerprint with
  | some f => rfl
  | none =>
      cases p.previousFingerprint with
      | none => rfl
      | some previous =>
          simp only [Option.map_none, Option.bind_some, hfind]
          cases w.find previous with
          | none => rfl
          | some f =>
              by_cases h : sameSecret f.toFinding p.toFindingPayload <;> simp [Option.filter, h]

theorem Keyed.step (hw : w.Keyed) (p : ReportedFinding) : (w.step s p).Keyed :=
  hw.sight (resolves_find w p)

theorem Keyed.run (hw : w.Keyed) (payloads : List ReportedFinding) : (w.run s payloads).Keyed := by
  induction payloads generalizing w with
  | nil => exact hw
  | cons p payloads ih => exact ih (hw.step p)

theorem eventsUnique_run (hw : w.Keyed) (payloads : List ReportedFinding) :
    (w.run s payloads).EventsUnique ↔ w.EventsUnique ∧ w.ReopensOnce s payloads := by
  induction payloads generalizing w with
  | nil => exact (and_iff_left trivial).symm
  | cons p payloads ih =>
      rw [run_cons, ih (hw.step p), step, eventsUnique_sight hw (resolves_find w p), and_assoc]
      rfl

theorem sight_toFinding (hnewId : s.newId.next = fun ids => ids.foldr max 0 + 1)
    (hw : w.Keyed) : (w.step s p).rows.map (·.toFinding) =
      ingestFinding s.rules s.scanId s.now (w.rows.map (·.toFinding)) p.toFindingPayload := by
  unfold ingestFinding
  dsimp only
  rw [findExisting_toFinding]
  unfold step
  cases hresolve : resolveExisting w.find p with
  | none =>
      have hid : w.newId s = ((w.rows.map (·.toFinding)).map (·.id)).foldr max 0 + 1 := by
        rw [newId, hnewId, List.map_map]
        rfl
      simp only [sight, Option.map_none, List.map_append, List.map_singleton, createRow_toFinding,
        hid]
      rfl
  | some e =>
      obtain ⟨f, rekeyed⟩ := e
      have hresolves := resolves_find w p
      rw [hresolve] at hresolves
      simp only [sight, Option.map_some, List.map_map]
      apply List.map_congr_left
      intro g hg
      simp only [Function.comp_apply]
      by_cases hid : g.id = f.id
      · rw [if_pos hid, if_pos hid, refreshRow_toFinding]
        cases hresolves with
        | known hf hfp =>
            obtain rfl := hw.eq_of_id hg hf hid
            rw [rekeyed, if_pos hfp]
            rfl
        | outgoing hf hnew _ _ => rw [if_pos rfl, IngestedFinding.rekey_toFinding (hnew g hg)]
      · rw [if_neg hid, if_neg hid]

end Ingested

namespace IngestSession
variable {s : IngestSettings} {p : ReportedFinding} {w : IngestSession}

/-- The database holds the rows of the session, under identities that may be old. -/
structure Tracks (w : IngestSession) : Prop where
  ids : w.table.map Prod.fst = w.keys.map Prod.fst
  keyed : w.Keyed

theorem Tracks.writeBack (hw : w.Tracks) : w.writeBack =
    if w.EventsUnique ∧ UniqueColumn.Clear w.table w.keys then some { w with table := w.keys }
    else none := by
  obtain ⟨hids, hfps⟩ := Ingested.keyed_iff.1 hw.keyed
  rw [IngestSession.writeBack, UniqueColumn.flush_eq hw.ids hids hfps, ite_and]
  split_ifs <;> rfl

theorem Tracks.sight_some (hw : w.Tracks) {e : IngestedFinding × Bool}
    (h : Resolves w.toIngested p (some e)) :
    Tracks { w with toIngested := w.sight s p (some e) } where
  ids := hw.ids.trans (Ingested.keys_sight_fst e).symm
  keyed := hw.keyed.sight h

theorem tracks_sight_none (hw : w.Keyed) (h : Resolves w.toIngested p none) :
    Tracks { toIngested := w.sight s p none, table := (w.sight s p none).keys } where
  ids := rfl
  keyed := hw.sight h

/-- A new row is refused only where what was changed before it is. -/
theorem Tracks.store_none (hw : w.Tracks) (h : Resolves w.toIngested p none) :
    w.store s p none =
      if w.EventsUnique ∧ UniqueColumn.Clear w.table w.keys then
        some { toIngested := w.sight s p none, table := (w.sight s p none).keys }
      else none := by
  obtain ⟨hnew⟩ := h
  have hfree : ¬ ∃ r ∈ w.keys, r.2 = p.fingerprint := by
    rintro ⟨⟨id, fp⟩, hr, rfl⟩
    obtain ⟨f, hf, -, hfp⟩ := Ingested.mem_keys.1 hr
    exact hnew f hf hfp
  unfold store
  simp only [hw.writeBack]
  split_ifs with hclear
  · simp only [Option.bind_eq_bind, Option.bind_some, if_neg hfree, Ingested.keys_sight_none]
  · rfl

theorem select_written (hw : w.Keyed) (htable : w.table = w.keys) (fp : String) :
    w.select fp = w.find fp := by
  have hfound : ∀ id, (w.table.find? fun r => r.2 = fp).map Prod.fst = some id ↔
      (id, fp) ∈ w.keys := by
    intro id
    rw [htable, Option.map_eq_some_iff]
    constructor
    · rintro ⟨r, hr, rfl⟩
      obtain ⟨hmem, rfl⟩ := (UniqueColumn.find?_key (Ingested.keyed_iff.1 hw).2).1 hr
      exact hmem
    · intro hmem
      exact ⟨_, (UniqueColumn.find?_key (Ingested.keyed_iff.1 hw).2).2 ⟨hmem, rfl⟩, rfl⟩
  rw [← hw.find_of_keys hfound, select, Option.bind_map]
  rfl

theorem Tracks.singly (hw : w.Tracks) (hunique : w.EventsUnique)
    (hclear : UniqueColumn.Clear w.table w.keys) :
    ∃ w' : IngestSession, w.singly s p = some w' ∧ w'.Tracks ∧
      UniqueColumn.Clear w'.table w'.keys ∧ w'.toIngested = w.step s p := by
  let written : IngestSession := { w with table := w.keys }
  have hwritten : written.Tracks := ⟨rfl, hw.keyed⟩
  have hself : UniqueColumn.Clear w.keys w.keys := fun r hr hrt => absurd hr hrt
  have hlookup : resolveExisting written.select p = resolveExisting w.find p :=
    congrArg (resolveExisting · p) (funext (select_written (w := written) hw.keyed rfl))
  have hsingly : w.singly s p = written.store s p (resolveExisting w.find p) := by
    unfold IngestSession.singly
    rw [hw.writeBack, if_pos ⟨hunique, hclear⟩]
    exact congrArg (written.store s p) hlookup
  have hresolves := resolves_find w.toIngested p
  rw [hsingly, Ingested.step]
  cases hresolve : resolveExisting w.find p with
  | none =>
      rw [hresolve] at hresolves
      rw [hwritten.store_none hresolves, if_pos ⟨hunique, hself⟩]
      exact ⟨_, rfl, tracks_sight_none hw.keyed hresolves, fun r hr hrt => absurd hr hrt, rfl⟩
  | some e =>
      rw [hresolve] at hresolves
      refine ⟨_, rfl, hwritten.sight_some hresolves, ?_, rfl⟩
      obtain ⟨f, rekeyed⟩ := e
      cases rekeyed with
      | false =>
          change UniqueColumn.Clear w.keys (w.sight s p (some (f, false))).keys
          rw [Ingested.keys_sight_known]
          exact hself
      | true =>
          change UniqueColumn.Clear w.keys (w.sight s p (some (f, true))).keys
          rw [Ingested.keys_sight_outgoing]
          exact UniqueColumn.clear_of_single

theorem Tracks.foldlM_singly (payloads : List ReportedFinding) (hw : w.Tracks)
    (hclear : UniqueColumn.Clear w.table w.keys) :
    ((payloads.foldlM (IngestSession.singly s) w).bind fun w => w.writeBack) =
      if (w.run s payloads).EventsUnique then
        some { toIngested := w.run s payloads, table := (w.run s payloads).keys }
      else none := by
  induction payloads generalizing w with
  | nil => exact hw.writeBack.trans (if_congr (and_iff_left hclear) rfl rfl)
  | cons p payloads ih =>
      rw [List.foldlM_cons]
      by_cases hunique : w.EventsUnique
      · obtain ⟨w₁, hone, hw₁, hclear₁, hstep⟩ := hw.singly hunique hclear (s := s) (p := p)
        rw [hone, Ingested.run_cons, ← hstep]
        exact ih hw₁ hclear₁
      · have hlater : ¬ (w.run s (p :: payloads)).EventsUnique := fun h =>
          hunique ((Ingested.eventsUnique_run hw.keyed _).1 h).1
        have hrefused : w.singly s p = none := by
          rw [IngestSession.singly, hw.writeBack, if_neg fun h => hunique h.1]
          rfl
        rw [hrefused, if_neg hlater]
        rfl

end IngestSession

namespace BatchSession
variable {s : IngestSettings} {p : ReportedFinding} {w : BatchSession} {wanted : List String}

/-- Everything that a batch can ask for is answered as the rows stand. -/
structure Agrees (wanted : List String) (w : BatchSession) : Prop where
  tracks : w.Tracks
  known : ∀ fp ∈ wanted, ∀ id, w.known fp = some id ↔ (id, fp) ∈ w.keys

structure Asks (wanted : List String) (p : ReportedFinding) : Prop where
  fingerprint : p.fingerprint ∈ wanted
  previous : ∀ previous ∈ p.previousFingerprint, previous ∈ wanted

theorem Agrees.resolve (hw : w.Agrees wanted) (hp : Asks wanted p) :
    resolveExisting w.get p = resolveExisting w.find p := by
  apply resolveExisting_congr
  · exact hw.tracks.keyed.find_of_keys (hw.known _ hp.fingerprint)
  · intro previous hprevious
    exact hw.tracks.keyed.find_of_keys (hw.known _ (hp.previous previous hprevious))

/-- The map follows what a payload creates or re-keys. -/
theorem Agrees.register (hw : w.Agrees wanted) {existing : Option (IngestedFinding × Bool)}
    (h : Resolves w.toIngested p existing) : ∀ fp ∈ wanted, ∀ id,
      w.register s p existing fp = some id ↔ (id, fp) ∈ (w.sight s p existing).keys := by
  intro fp hfp id
  cases h with
  | created hnew =>
      rw [Ingested.keys_sight_none, List.mem_append, List.mem_singleton, Prod.mk.injEq]
      by_cases heq : fp = p.fingerprint
      · subst heq
        have hno : (id, p.fingerprint) ∉ w.keys := by
          rw [Ingested.mem_keys]
          rintro ⟨f, hf, -, h⟩
          exact hnew f hf h
        simp [BatchSession.register, hno, eq_comm]
      · simp [BatchSession.register, heq, hw.known fp hfp]
  | known hf _ =>
      rw [Ingested.keys_sight_known]
      exact hw.known fp hfp id
  | @outgoing f hf hnew hprevious _ =>
      have hids := (Ingested.keyed_iff.1 hw.tracks.keyed).1
      have hfps := (Ingested.keyed_iff.1 hw.tracks.keyed).2
      have hold : (f.id, f.fingerprint) ∈ w.keys := Ingested.mem_keys.2 ⟨f, hf, rfl, rfl⟩
      have hmem : (id, fp) ∈ (w.sight s p (some (f, true))).keys ↔
          id = f.id ∧ fp = p.fingerprint ∨ id ≠ f.id ∧ (id, fp) ∈ w.keys := by
        rw [Ingested.keys_sight_outgoing, List.mem_map]
        constructor
        · rintro ⟨⟨i, k⟩, hr, heq⟩
          by_cases h : i = f.id
          · rw [if_pos h, Prod.mk.injEq] at heq
            exact Or.inl ⟨heq.1 ▸ h, heq.2.symm⟩
          · rw [if_neg h] at heq
            cases heq
            exact Or.inr ⟨h, hr⟩
        · rintro (⟨rfl, rfl⟩ | ⟨hne, hr⟩)
          · exact ⟨_, hold, if_pos rfl⟩
          · exact ⟨_, hr, if_neg hne⟩
      rw [hmem]
      simp only [BatchSession.register, hprevious, Option.elim_some]
      by_cases heq : fp = p.fingerprint
      · subst heq
        have hno : (id, p.fingerprint) ∉ w.keys := by
          rw [Ingested.mem_keys]
          rintro ⟨g, hg, -, h⟩
          exact hnew g hg h
        simp [hno, eq_comm]
      · rw [Function.update_of_ne heq]
        by_cases hprev : fp = f.fingerprint
        · subst hprev
          -- the identity that was given up belongs to no other row
          have hgone : ¬ (id ≠ f.id ∧ (id, f.fingerprint) ∈ w.keys) := by
            rintro ⟨hne, hr⟩
            exact hne (congrArg Prod.fst (List.inj_on_of_nodup_map hfps hr hold rfl))
          simp [heq, hgone]
        · rw [Function.update_of_ne hprev, hw.known fp hfp id]
          have hother : (id, fp) ∈ w.keys → id ≠ f.id := by
            rintro hr rfl
            exact hprev (congrArg Prod.snd (List.inj_on_of_nodup_map hids hr hold rfl))
          constructor
          · intro hr
            exact Or.inr ⟨hother hr, hr⟩
          · rintro (⟨-, h⟩ | ⟨-, hr⟩)
            · exact absurd h heq
            · exact hr

/-- The rest of a batch: it leaves what one at a time leaves, or a write-back is refused. -/
theorem Agrees.foldlM_step (payloads : List ReportedFinding)
    (hasks : ∀ p ∈ payloads, Asks wanted p) (hw : w.Agrees wanted) :
    ((payloads.foldlM (BatchSession.step s) w).bind fun w => w.writeBack) =
      if (w.run s payloads).EventsUnique ∧ w.FlushesClear s payloads then
        some { toIngested := w.run s payloads, table := (w.run s payloads).keys }
      else none := by
  induction payloads generalizing w with
  | nil => exact hw.tracks.writeBack
  | cons p payloads ih =>
      have hp := hasks p List.mem_cons_self
      have hrest : ∀ p ∈ payloads, Asks wanted p :=
        fun q hq => hasks q (List.mem_cons_of_mem p hq)
      have hresolves := resolves_find w.toIngested p
      obtain ⟨existing, hresolve⟩ : ∃ existing, resolveExisting w.find p = existing := ⟨_, rfl⟩
      rw [hresolve] at hresolves
      have hstep : Ingested.step s w.toIngested p = w.sight s p existing :=
        congrArg (fun e => w.sight s p e) hresolve
      rw [List.foldlM_cons, BatchSession.step, hw.resolve hp, hresolve, Ingested.run_cons, hstep]
      cases existing with
      | none =>
          have hcons : w.FlushesClear s (p :: payloads) ↔
              UniqueColumn.Clear w.table w.keys ∧
                IngestSession.FlushesClear s
                  { toIngested := w.sight s p none, table := (w.sight s p none).keys }
                  payloads := by
            simp only [IngestSession.FlushesClear, hresolve]
          have hlater : ((w.sight s p none).run s payloads).EventsUnique → w.EventsUnique := by
            intro hrun
            have hkeyed := hw.tracks.keyed.sight hresolves (s := s)
            have hunique := ((Ingested.eventsUnique_run hkeyed _).1 hrun).1
            exact ((Ingested.eventsUnique_sight hw.tracks.keyed hresolves).1 hunique).1
          rw [hw.tracks.store_none hresolves, if_congr (and_congr_right' hcons) rfl rfl]
          by_cases hclear : w.EventsUnique ∧ UniqueColumn.Clear w.table w.keys
          · rw [if_pos hclear, if_congr (and_congr_right' (and_iff_right hclear.2)) rfl rfl]
            exact ih hrest ⟨IngestSession.tracks_sight_none hw.tracks.keyed hresolves,
              hw.register hresolves⟩
          · rw [if_neg hclear, if_neg fun h => hclear ⟨hlater h.1, h.2.1⟩]
            rfl
      | some e =>
          have hcons : w.FlushesClear s (p :: payloads) ↔ IngestSession.FlushesClear s
              { w.toIngestSession with toIngested := w.sight s p (some e) } payloads := by
            simp only [IngestSession.FlushesClear, hresolve]
          rw [if_congr (and_congr_right' hcons) rfl rfl]
          exact ih hrest ⟨hw.tracks.sight_some hresolves, hw.register hresolves⟩

end BatchSession

theorem exists_chunk {ordered : List String} {fp : String} :
    (∃ chunk ∈ chunksOf ordered, fp ∈ chunk) ↔ fp ∈ ordered := by
  constructor
  · rintro ⟨chunk, hchunk, hfp⟩
    obtain ⟨i, -, rfl⟩ := List.mem_map.1 hchunk
    exact List.mem_of_mem_drop (List.mem_of_mem_take hfp)
  · intro hfp
    obtain ⟨j, hj, rfl⟩ := List.mem_iff_getElem.1 hfp
    have hchunk : j / lookupChunk < (ordered.length + lookupChunk - 1) / lookupChunk := by
      unfold lookupChunk
      omega
    refine ⟨_, List.mem_map.2 ⟨j / lookupChunk, List.mem_range.2 hchunk, rfl⟩, ?_⟩
    apply List.mem_iff_getElem.2
    have hoffset : j / lookupChunk * lookupChunk + j % lookupChunk = j := by
      rw [mul_comm]
      exact Nat.div_add_mod j lookupChunk
    have hlt : j % lookupChunk < lookupChunk := Nat.mod_lt _ (by decide)
    have hlength : j % lookupChunk <
        ((ordered.drop (j / lookupChunk * lookupChunk)).take lookupChunk).length := by
      rw [List.length_take, List.length_drop]
      omega
    refine ⟨j % lookupChunk, hlength, ?_⟩
    simp only [List.getElem_take, List.getElem_drop, hoffset]

theorem mem_wantedOf {payloads : List ReportedFinding} {fp : String} :
    fp ∈ wantedOf payloads ↔
      ∃ p ∈ payloads, p.fingerprint = fp ∨ p.previousFingerprint = some fp := by
  unfold wantedOf
  rw [(List.mergeSort_perm _ _).mem_iff, List.mem_dedup, List.mem_append, List.mem_map,
    List.mem_filterMap]
  constructor
  · rintro (⟨p, hp, h⟩ | ⟨p, hp, h⟩)
    · exact ⟨p, hp, Or.inl h⟩
    · exact ⟨p, hp, Or.inr h⟩
  · rintro ⟨p, hp, h | h⟩
    · exact Or.inl ⟨p, hp, h⟩
    · exact Or.inr ⟨p, hp, h⟩

/-- Rows registered one after another, no two of them under one fingerprint. -/
theorem foldl_update {rows : UniqueColumn.Table ℕ String}
    (hrows : ∀ r ∈ rows, ∀ r' ∈ rows, r.2 = r'.2 → r.1 = r'.1) {fp : String} {id : ℕ} :
    rows.foldl (fun (known : String → Option ℕ) r => Function.update known r.2 (some r.1))
        (fun _ => none) fp = some id ↔
      (id, fp) ∈ rows := by
  induction rows using List.reverseRecOn with
  | nil => simp
  | append_singleton rows r ih =>
      have hinit : ∀ r ∈ rows, ∀ r' ∈ rows, r.2 = r'.2 → r.1 = r'.1 := fun a ha b hb =>
        hrows a (List.mem_append_left _ ha) b (List.mem_append_left _ hb)
      rw [List.foldl_concat, List.mem_append, List.mem_singleton]
      by_cases heq : fp = r.2
      · subst heq
        rw [Function.update_self, Option.some.injEq]
        constructor
        · rintro rfl
          exact Or.inr rfl
        · rintro (hmem | h)
          · exact hrows r (by simp) _ (List.mem_append_left _ hmem) rfl
          · rw [← h]
      · rw [Function.update_of_ne heq, ih hinit]
        constructor
        · exact Or.inl
        · rintro (hmem | rfl)
          · exact hmem
          · exact absurd rfl heq

theorem loadFindings_eq_some {table : UniqueColumn.Table ℕ String}
    (htable : (table.map Prod.snd).Nodup) {payloads : List ReportedFinding} {fp : String}
    (hfp : fp ∈ wantedOf payloads) {id : ℕ} :
    loadFindings table payloads fp = some id ↔ (id, fp) ∈ table := by
  have hmem : ∀ r : ℕ × String,
      r ∈ ((chunksOf (wantedOf payloads)).flatMap fun chunk => table.filter fun r => r.2 ∈ chunk) ↔
        r ∈ table ∧ r.2 ∈ wantedOf payloads := by
    intro r
    rw [← exists_chunk, List.mem_flatMap]
    simp only [List.mem_filter, decide_eq_true_eq]
    constructor
    · rintro ⟨chunk, hchunk, hr, hin⟩
      exact ⟨hr, chunk, hchunk, hin⟩
    · rintro ⟨hr, chunk, hchunk, hin⟩
      exact ⟨chunk, hchunk, hr, hin⟩
  unfold loadFindings
  rw [foldl_update, hmem]
  · exact and_iff_left hfp
  · intro r hr r' hr' heq
    exact congrArg Prod.fst
      (List.inj_on_of_nodup_map htable ((hmem r).1 hr).1 ((hmem r').1 hr').1 heq)

/-- The findings of a source, under the unique constraints of the two tables. -/
structure SourceFindings where
  rows : List IngestedFinding
  keyed : Keyed (rows.map (·.toFinding))
  events : ∀ f ∈ rows, (systemKeys f.events).Nodup

/-- The batch and the payloads one at a time come to the same end, with every payload
accounted for. -/
structure IngestedAlike (s : IngestSettings) (threshold : ℚ) (stored : SourceFindings)
    (payloads : List ReportedFinding) (out : IngestSession) : Prop where
  batched : ingestBatch s threshold stored.rows payloads = some out
  singly : ingestSingly s threshold stored.rows payloads = some out
  keyed : out.Keyed
  events : out.EventsUnique
  written : out.table = out.keys
  fingerprints : out.outcome.fingerprints = (scoredOf threshold payloads).map (·.fingerprint)
  ingested : out.outcome.ingested = (scoredOf threshold payloads).length
  belowThreshold : out.outcome.belowThreshold + out.outcome.ingested = payloads.length
  ends : out.toIngested =
    Ingested.run s (IngestSession.begin stored.rows threshold payloads).toIngested
      (scoredOf threshold payloads)
  takes : ∀ before p after, scoredOf threshold payloads = before ++ p :: after →
    Ingested.Takes s p
      (Ingested.run s (IngestSession.begin stored.rows threshold payloads).toIngested before)
      (Ingested.run s (IngestSession.begin stored.rows threshold payloads).toIngested
        (before ++ [p]))

section Run
variable {s : IngestSettings} {threshold : ℚ} {stored : SourceFindings} {w : Ingested}
  {payloads : List ReportedFinding}

theorem tracks_begin (threshold : ℚ) (stored : SourceFindings) (payloads : List ReportedFinding) :
    (IngestSession.begin stored.rows threshold payloads).Tracks :=
  ⟨rfl, stored.keyed⟩

theorem agrees_begin (threshold : ℚ) (stored : SourceFindings)
    (payloads : List ReportedFinding) :
    BatchSession.Agrees (wantedOf (scoredOf threshold payloads))
      { toIngestSession := IngestSession.begin stored.rows threshold payloads
        known := loadFindings (IngestSession.begin stored.rows threshold payloads).table
          (scoredOf threshold payloads) } where
  tracks := tracks_begin threshold stored payloads
  known := fun _ hfp _ => loadFindings_eq_some
    (Ingested.keyed_iff.1 (tracks_begin threshold stored payloads).keyed).2 hfp

theorem asks_wantedOf {p : ReportedFinding} (hp : p ∈ payloads) :
    BatchSession.Asks (wantedOf payloads) p where
  fingerprint := mem_wantedOf.2 ⟨p, hp, Or.inl rfl⟩
  previous := fun _ hprevious => mem_wantedOf.2 ⟨p, hp, Or.inr hprevious⟩

theorem ingestSingly_eq (s : IngestSettings) (threshold : ℚ) (stored : SourceFindings)
    (payloads : List ReportedFinding) :
    ingestSingly s threshold stored.rows payloads =
      let start := (IngestSession.begin stored.rows threshold payloads).toIngested
      let w := start.run s (scoredOf threshold payloads)
      if start.ReopensOnce s (scoredOf threshold payloads) then
        some { toIngested := w, table := w.keys }
      else none := by
  have hbegin := tracks_begin threshold stored payloads
  have hunique : (IngestSession.begin stored.rows threshold payloads).EventsUnique := stored.events
  refine (hbegin.foldlM_singly _ fun r hr hrt => absurd hr hrt).trans ?_
  exact if_congr ((Ingested.eventsUnique_run hbegin.keyed _).trans (and_iff_right hunique)) rfl rfl

/-- A batch ends as one at a time does, or is refused at a write-back. -/
theorem ingestBatch_eq (s : IngestSettings) (threshold : ℚ) (stored : SourceFindings)
    (payloads : List ReportedFinding) :
    ingestBatch s threshold stored.rows payloads =
      if (IngestSession.begin stored.rows threshold payloads).FlushesClear s
          (scoredOf threshold payloads) then
        ingestSingly s threshold stored.rows payloads
      else none := by
  have hbegin := tracks_begin threshold stored payloads
  have hunique : (IngestSession.begin stored.rows threshold payloads).EventsUnique := stored.events
  have honce := (Ingested.eventsUnique_run (s := s) hbegin.keyed
    (scoredOf threshold payloads)).trans (and_iff_right hunique)
  refine ((agrees_begin threshold stored payloads).foldlM_step _ fun p hp =>
    asks_wantedOf hp).trans ?_
  rw [ingestSingly_eq, if_congr ((and_congr_left' honce).trans and_comm) rfl rfl, ite_and]

namespace Ingested

theorem run_append (s : IngestSettings) (w : Ingested) (before after : List ReportedFinding) :
    w.run s (before ++ after) = (w.run s before).run s after :=
  List.foldl_append

theorem outcome_run (s : IngestSettings) (w : Ingested) (payloads : List ReportedFinding) :
    (w.run s payloads).outcome.fingerprints =
        w.outcome.fingerprints ++ payloads.map (·.fingerprint) ∧
      (w.run s payloads).outcome.ingested = w.outcome.ingested + payloads.length ∧
      (w.run s payloads).outcome.belowThreshold = w.outcome.belowThreshold := by
  induction payloads generalizing w with
  | nil => simp
  | cons p payloads ih =>
      obtain ⟨hfps, hingested, hbelow⟩ := ih (w.step s p)
      refine ⟨?_, ?_, ?_⟩
      · rw [run_cons, hfps]
        simp [Ingested.step, sight]
      · rw [run_cons, hingested, List.length_cons]
        simp only [Ingested.step, sight]
        omega
      · rw [run_cons, hbelow]
        rfl

end Ingested

/-- Batched ingest is one-at-a-time ingest exactly where its write-backs are clear and nothing
is re-opened twice. -/
theorem ingestBatch_alike_iff (s : IngestSettings) (threshold : ℚ) (stored : SourceFindings)
    (payloads : List ReportedFinding) :
    (∃ out, IngestedAlike s threshold stored payloads out) ↔
      (IngestSession.begin stored.rows threshold payloads).FlushesClear s
        (scoredOf threshold payloads) ∧
      (IngestSession.begin stored.rows threshold payloads).ReopensOnce s
        (scoredOf threshold payloads) := by
  have hbatch := ingestBatch_eq s threshold stored payloads
  have hsingly := ingestSingly_eq s threshold stored payloads
  constructor
  · rintro ⟨out, h⟩
    constructor
    · by_contra hclear
      rw [if_neg hclear, h.batched] at hbatch
      cases hbatch
    · by_contra honce
      rw [h.singly] at hsingly
      simp only [if_neg honce] at hsingly
      cases hsingly
  · rintro ⟨hclear, honce⟩
    rw [if_pos hclear] at hbatch
    simp only [if_pos honce] at hsingly
    have hkeyed := (tracks_begin threshold stored payloads).keyed
    obtain ⟨hfps, hingested, hbelow⟩ := Ingested.outcome_run s
      (IngestSession.begin stored.rows threshold payloads).toIngested (scoredOf threshold payloads)
    refine ⟨_, hbatch.trans hsingly, hsingly, hkeyed.run _,
      (Ingested.eventsUnique_run hkeyed _).2 ⟨stored.events, honce⟩, rfl, hfps, ?_, ?_, rfl, ?_⟩
    · rw [hingested]
      exact Nat.zero_add _
    · have hle : (scoredOf threshold payloads).length ≤ payloads.length :=
        List.length_filter_le _ _
      rw [hbelow, hingested]
      simp only [IngestSession.begin]
      omega
    · intro before p after _
      rw [Ingested.run_append]
      exact Ingested.takes_sight (hkeyed.run before) (resolves_find _ p)

end Run

/-- Two findings whose identities form a chain: the first payload re-keys the second row,
and the second payload gives the first row the identity that has just become free. -/
def chainedSettings : IngestSettings where
  sourceId := 1
  scanId := 2
  now := 100
  newId := ⟨fun ids => ids.foldr max 0 + 1, fun ids h => absurd (le_foldr_max h) (by omega)⟩

def chainedRow (id : ℕ) (fingerprint secretHash : String) : IngestedFinding where
  id := id
  fingerprint := fingerprint
  secretHash := secretHash
  ruleId := "generic-api-key"
  lastSeenScanId := 1
  firstSeenScanId := 1
  rulepackVersion := "1"
  redactedSnippet := "****"
  severity := .high

def chainedPayload (current currentHash previous previousHash : String) : ReportedFinding where
  fingerprint := current
  secretHash := currentHash
  ruleId := "generic-api-key"
  previousFingerprint := some previous
  previousSecretHash := some previousHash
  rulepackVersion := "1"
  redactedSnippet := "****"
  severity := .high

def chainedFindings : SourceFindings where
  rows :=
    [chainedRow 1 "aaaaaaaaaaaaaaaa" "1111111111111111",
      chainedRow 2 "bbbbbbbbbbbbbbbb" "2222222222222222"]
  keyed := ⟨by decide, by decide⟩
  events := by decide

def chainedPayloads : List ReportedFinding :=
  [chainedPayload "cccccccccccccccc" "3333333333333333" "bbbbbbbbbbbbbbbb" "2222222222222222",
    chainedPayload "bbbbbbbbbbbbbbbb" "4444444444444444" "aaaaaaaaaaaaaaaa" "1111111111111111"]

theorem chained_not_clear :
    ¬ (IngestSession.begin chainedFindings.rows 0 chainedPayloads).FlushesClear chainedSettings
      (scoredOf 0 chainedPayloads) := by decide

/-- The batch is refused where one at a time is not. -/
theorem ingestBatch_refused :
    ingestBatch chainedSettings 0 chainedFindings.rows chainedPayloads = none ∧
      (ingestSingly chainedSettings 0 chainedFindings.rows chainedPayloads).isSome := by
  constructor
  · rw [ingestBatch_eq, if_neg chained_not_clear]
  · have honce : (IngestSession.begin chainedFindings.rows 0 chainedPayloads).ReopensOnce
        chainedSettings (scoredOf 0 chainedPayloads) := by decide
    rw [ingestSingly_eq]
    simp only [if_pos honce]
    rfl

end IcebergSST
