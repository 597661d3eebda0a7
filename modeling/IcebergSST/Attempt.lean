import IcebergSST.Delivery

/-!
# One attempt at a fetch task

A `Runner` is an engine inside `_fetch`, with the events its loop has processed so
far. Whatever the connector yields, the clock shows and the network loses, the
batches accepted from it stay accounted for by that history.
-/

namespace IcebergSST

variable {κ β χ ρ : Type}

/-- An attempt in progress. `history` holds the events the loop got to the end of,
and `base` is how many batches the API had taken when the lease was granted; no code
reads either. -/
structure Runner (κ β χ ρ : Type) where
  lease : Lease κ β χ
  fetch : Fetch κ β χ ρ
  history : Events κ β χ ρ := []
  base : ℕ

def Runner.accepted (r : Runner κ β χ ρ) (api : ApiState κ χ ρ) : List (ProgressSubmission κ χ) :=
  api.batches.drop r.base

/-- The checkpoint a new batch is composed with at a tick, if one is. -/
def Fetch.composes [DecidableEq χ] (f : Fetch κ β χ ρ) (t : Tick) : Option χ :=
  match f.batcher, f.outcome.checkpoint with
  | some b, some published =>
      if b.inFlight = none ∧ b.due (some published) t.now then some published else none
  | _, _ => none

/-- The loop advances by one event; the event at which it was left is not counted. -/
def Runner.step [DecidableEq χ] (r : Runner κ β χ ρ) (e : ConnectorEvent κ β χ ρ) (t : Tick)
    (api : ApiState κ χ ρ) : Runner κ β χ ρ × ApiState κ χ ρ :=
  let moved := r.fetch.step r.lease e t api
  ({ r with
    fetch := moved.1
    history := if moved.1.exit = none then r.history ++ [e] else r.history }, moved.2)

/-- The condition the composition of a batch at this event is subject to. -/
def Runner.Permits [DecidableEq χ] (G : χ → Events κ β χ ρ → Prop) (r : Runner κ β χ ρ)
    (e : ConnectorEvent κ β χ ρ) (t : Tick) : Prop :=
  e.IsUnit → t.cancelled = false → ∀ c ∈ r.fetch.composes t, G c r.history

structure Runner.Sound (G : χ → Events κ β χ ρ → Prop) (r : Runner κ β χ ρ)
    (api : ApiState κ χ ρ) : Prop where
  base_le : r.base ≤ api.batches.length
  traces : r.fetch.Traces r.lease r.history
  delivery : ∀ b, r.fetch.batcher = some b → b.SoundAt G r.lease r.history r.base api
  idle : r.fetch.batcher = none → r.accepted api = []

section Flush
variable {G : χ → Events κ β χ ρ → Prop} {lease : Lease κ β χ} {h : Events κ β χ ρ}
  {b : Batcher κ χ} {api : ApiState κ χ ρ} {base : ℕ}

theorem Batcher.SoundAt.rearm (hs : b.SoundAt G lease h base api) (deadline : ℚ) :
    Batcher.SoundAt G lease h { b with deadline } base api := by
  obtain ⟨hbase, ledger, log, h₀, hd, hlog⟩ := hs
  exact ⟨hbase, ledger, log, h₀, ⟨hd.link, hd.sent, hd.past, hd.pending, hd.inFlight⟩, hlog⟩

/-- What `send` composes from a boundary describing the last cut. -/
theorem Batcher.composed_compose {pending : Boundary} (hp : pending.Describes lease (cut h))
    {checkpoint : χ} (hpub : ConnectorEvent.checkpointAt checkpoint ∈ h) (hG : G checkpoint h) :
    (b.compose pending checkpoint
      (Fetch.prepare lease.suppresses
        (((candidatesOf h).take pending.candidates).drop b.sentCandidates)).1
      (Fetch.prepare lease.suppresses
        (((candidatesOf h).take pending.candidates).drop b.sentCandidates)).2).Composed
      G lease b.sent h := by
  have hall : (candidatesOf h).take pending.candidates = candidatesOf h := by
    rw [hp.candidates, candidatesOf_cut, List.take_length]
  rw [hall]
  exact ⟨hp, hpub, rfl, rfl, rfl, rfl, hG⟩

theorem Batcher.SoundAt.load (hs : b.SoundAt G lease h base api) {checkpoint : χ}
    (hpub : ConnectorEvent.checkpointAt checkpoint ∈ h)
    (hG : b.inFlight = none → G checkpoint h) :
    (Fetch.load lease b checkpoint (candidatesOf h)).SoundAt G lease h base api := by
  unfold Fetch.load
  cases hflight : b.inFlight with
  | some batch => exact hs
  | none =>
      cases hpending : b.pending with
      | none => exact hs
      | some pending =>
          obtain ⟨hbase, ledger, log, h₀, hd, hlog⟩ := hs
          have hc := Batcher.composed_compose (b := b) (hd.pending pending hpending) hpub
            (hG hflight)
          have hd' := hd.compose hflight rfl hc
          rw [hpending] at hd'
          exact ⟨hbase, ledger, log, h₀, hd', hlog⟩

theorem Batcher.SoundAt.flush (hs : b.SoundAt G lease h base api) {checkpoint : χ}
    (hpub : ConnectorEvent.checkpointAt checkpoint ∈ h)
    (hG : b.inFlight = none → G checkpoint h) (t : Tick) :
    (Fetch.flush lease b checkpoint (candidatesOf h) t api).1.SoundAt G lease h base
      (Fetch.flush lease b checkpoint (candidatesOf h) t api).2 :=
  ((hs.load hpub hG).deliver _ _).rearm _

/-! What a batch that describes a fetch cannot break, no flush breaks. -/

def ProgressSubmission.Fetched (body : ProgressSubmission κ χ) : Prop :=
  ∀ c ∈ body.coverage, c.phase = .fetch

theorem Batch.Composed.fetched {sent : Boundary} {batch : Batch κ χ}
    (hc : batch.Composed G lease sent h) : batch.payload.Fetched := by
  intro c hmem
  rw [hc.coverage] at hmem
  obtain rfl := Option.some.inj hmem
  exact hc.describes.phase

theorem Batcher.SoundAt.deliver_preserves {P : ApiState κ χ ρ → Prop}
    (hs : b.SoundAt G lease h base api) {engine : EngineId}
    (hP : ∀ (body : ProgressSubmission κ χ) s, body.Fetched → P s →
      P (s.submitProgress engine body).1)
    (fates : List Fate) (hapi : P api) : P (b.deliver engine fates api).2 := by
  unfold Batcher.deliver
  cases hflight : b.inFlight with
  | none => exact hapi
  | some batch =>
      obtain ⟨_, ledger, log, h₀, hd, _⟩ := hs
      obtain ⟨_, h₁, _, _, hc⟩ := hd.inFlight batch hflight
      have hkept := (request_spec (hP batch.payload · hc.fetched) retryAttempts fates hapi).1
      dsimp only
      split
      all_goals
        rename_i heq
        rw [heq] at hkept
        exact hkept

end Flush

namespace Runner
variable {G : χ → Events κ β χ ρ → Prop} {r : Runner κ β χ ρ} {api : ApiState κ χ ρ}

theorem Sound.inspect (hs : r.Sound G api) (hexit : r.fetch.exit = none) (u : ContentUnit κ β) :
    Sound G
      { r with
        fetch := r.fetch.inspect u
        history := if (r.fetch.inspect u).exit = none then r.history ++ [.yield u]
          else r.history } api := by
  rcases hs.traces.inspect hexit u with ⟨hnone, ht, hb⟩ | ⟨hleft, ht, hb⟩
  · rw [if_pos hnone]
    refine ⟨hs.base_le, ht, ?_, ?_⟩
    · intro b' hb'
      change (r.fetch.inspect u).batcher = some b' at hb'
      rw [hb] at hb'
      obtain ⟨b, hb₀, rfl⟩ := Option.map_eq_some_iff.1 hb'
      obtain ⟨hbase, ledger, log, h₀, hd, hlog⟩ := hs.delivery b hb₀
      have hdesc : Boundary.Describes r.lease (cut (r.history ++ [.yield u]))
          ⟨(candidatesOf (r.history ++ [.yield u])).length,
            (r.fetch.inspect u).outcome.asCoverage, countsOf (r.history ++ [.yield u])⟩ := by
        rw [cut_append_unit]
        exact ⟨rfl, ⟨_, ht.coverage, rfl⟩, rfl⟩
      exact ⟨hbase, ledger, log, h₀, hd.boundary (List.prefix_append _ _) hdesc, hlog⟩
    · intro hnone'
      change (r.fetch.inspect u).batcher = none at hnone'
      rw [hb] at hnone'
      exact hs.idle (Option.map_eq_none_iff.1 hnone')
  · rw [if_neg hleft]
    refine ⟨hs.base_le, ht, ?_, ?_⟩
    · intro b' hb'
      exact hs.delivery b' (hb ▸ hb')
    · intro hnone'
      exact hs.idle (hb ▸ hnone')

variable [DecidableEq χ]

theorem Sound.beforeUnit (hs : r.Sound G api) {t : Tick}
    (hG : ∀ c ∈ r.fetch.composes t, G c r.history) :
    Sound G { r with fetch := (r.fetch.beforeUnit r.lease t api).1 }
      (r.fetch.beforeUnit r.lease t api).2 ∧
    (r.fetch.beforeUnit r.lease t api).1.exit = r.fetch.exit := by
  unfold Fetch.beforeUnit
  cases hb : r.fetch.batcher with
  | none => exact ⟨hs, rfl⟩
  | some b =>
      cases hc : r.fetch.outcome.checkpoint with
      | none => exact ⟨hs, rfl⟩
      | some published =>
          by_cases hdue : b.due (some published) t.now
          swap
          · simp only [if_neg hdue]
            exact ⟨hs, trivial⟩
          simp only [if_pos hdue]
          have hpub := hs.traces.published published hc
          have hcond : b.inFlight = none → G published r.history := by
            intro hfree
            apply hG published
            simp only [Fetch.composes, hb, hc, hfree, hdue, and_self, if_true]
            exact rfl
          have hflush := (hs.delivery b hb).flush hpub hcond t
          rw [← hs.traces.candidates] at hflush
          refine ⟨⟨hflush.1, ⟨hs.traces.coverage, hs.traces.candidates, hs.traces.counts,
            hs.traces.published⟩, ?_, ?_⟩, trivial⟩
          · intro b' hb'
            obtain rfl := Option.some.inj hb'
            exact hflush
          · intro hnone
            cases hnone

theorem Sound.step_preserves {P : ApiState κ χ ρ → Prop} (hs : r.Sound G api)
    (hP : ∀ (body : ProgressSubmission κ χ) s, body.Fetched → P s →
      P (s.submitProgress r.lease.engine body).1)
    {e : ConnectorEvent κ β χ ρ} {t : Tick} (hG : r.Permits G e t) (hapi : P api) :
    P (r.step e t api).2 := by
  change P (r.fetch.step r.lease e t api).2
  unfold Fetch.step
  by_cases hexit : r.fetch.exit.isSome
  · rw [if_pos hexit]
    exact hapi
  · rw [if_neg hexit]
    cases e with
    | yield u =>
        by_cases hcancel : t.cancelled
        · simp only [hcancel, if_true]
          exact hapi
        simp only [hcancel, Bool.false_eq_true, if_false]
        unfold Fetch.beforeUnit
        cases hb : r.fetch.batcher with
        | none => exact hapi
        | some b =>
            cases hc : r.fetch.outcome.checkpoint with
            | none => exact hapi
            | some published =>
                by_cases hdue : b.due (some published) t.now
                swap
                · simp only [if_neg hdue]
                  exact hapi
                simp only [if_pos hdue]
                have hpub := hs.traces.published published hc
                have hcond : b.inFlight = none → G published r.history := by
                  intro hfree
                  apply hG rfl (by simpa using hcancel) published
                  simp only [Fetch.composes, hb, hc, hfree, hdue, and_self, if_true]
                  exact rfl
                have hload := (hs.delivery b hb).load hpub hcond
                rw [← hs.traces.candidates] at hload
                exact hload.deliver_preserves hP t.fates hapi
    | _ => exact hapi

theorem Sound.step (hs : r.Sound G api) (hexit : r.fetch.exit = none)
    {e : ConnectorEvent κ β χ ρ} {t : Tick} (hG : r.Permits G e t) :
    (r.step e t api).1.Sound G (r.step e t api).2 := by
  cases he : e.IsUnit with
  | false =>
      have hmoved : r.fetch.step r.lease e t api =
          ({ r.fetch with outcome := e.note r.fetch.outcome }, api) := by
        unfold Fetch.step
        rw [if_neg (by rw [hexit]; simp)]
        cases e <;> first | rfl | cases he
      have ht := hs.traces.note hexit he
      rw [Runner.step, hmoved]
      dsimp only
      rw [if_pos hexit]
      refine ⟨hs.base_le, ht, ?_, hs.idle⟩
      intro b hb
      obtain ⟨hbase, ledger, log, h₀, hd, hlog⟩ := hs.delivery b hb
      exact ⟨hbase, ledger, log, h₀,
        hd.extend (List.prefix_append _ _) (cut_append_of_not_isUnit _ he), hlog⟩
  | true =>
      cases e with
      | yield u =>
          by_cases hcancel : t.cancelled
          · have hmoved : r.fetch.step r.lease (.yield u) t api =
                ({ r.fetch with exit := some .cancelled }, api) := by
              unfold Fetch.step
              rw [if_neg (by rw [hexit]; simp)]
              simp only [hcancel, if_true]
            rw [Runner.step, hmoved]
            simp only [reduceCtorEq, if_false]
            exact ⟨hs.base_le, ⟨hs.traces.coverage, hs.traces.candidates, nofun,
              hs.traces.published⟩, hs.delivery, hs.idle⟩
          · have hmoved : r.fetch.step r.lease (.yield u) t api =
                ((r.fetch.beforeUnit r.lease t api).1.inspect u,
                  (r.fetch.beforeUnit r.lease t api).2) := by
              unfold Fetch.step
              rw [if_neg (by rw [hexit]; simp)]
              simp only [hcancel, if_false, Bool.false_eq_true]
            obtain ⟨hs', hexit'⟩ := hs.beforeUnit (t := t) (hG rfl (by simpa using hcancel))
            rw [hexit] at hexit'
            rw [Runner.step, hmoved]
            exact hs'.inspect hexit' u
      | _ => cases he

end Runner

section Finish
variable {api : ApiState κ χ ρ}

theorem Fetch.report_checkpointSequence {lease : Lease κ β χ} {f : Fetch κ β χ ρ} {exit : Exit}
    {body : ResultsSubmission κ ρ} (h : f.report lease exit = some body) :
    body.checkpointSequence = f.batcher.elim 0 Batcher.sequence ∧
      body.findings =
        (f.candidates.drop f.sentCandidates).filter (fun c => !lease.suppresses c) := by
  unfold Fetch.report at h
  split_ifs at h
  rw [← Option.some.inj h]
  exact ⟨rfl, rfl⟩

/-- However often the report is retried, the API takes it once or not at all. -/
theorem Fetch.finish_cases (lease : Lease κ β χ) (f : Fetch κ β χ ρ) (exit : Exit)
    (fates : List Fate) :
    f.finish lease exit fates api = api ∨
      ∃ body, f.report lease (f.exit.getD exit) = some body ∧
        ResultsTaken api (f.finish lease exit fates api) lease.engine body := by
  unfold Fetch.finish
  cases hbody : f.report lease (f.exit.getD exit) with
  | none => exact Or.inl rfl
  | some body =>
      have hsend : ∀ s : ApiState κ χ ρ, (s = api ∨ ResultsTaken api s lease.engine body) →
          ((s.submitResults lease.engine body).1 = api ∨
            ResultsTaken api (s.submitResults lease.engine body).1 lease.engine body) := by
        rintro s (rfl | htaken)
        · exact submitResults_cases s lease.engine body
        · rcases submitResults_cases s lease.engine body with heq | hagain
          · rw [heq]
            exact Or.inr htaken
          · -- the first acceptance has set the result key
            obtain ⟨delta, merged, _, _, htask⟩ := htaken.task
            have hkey := hagain.unreported
            rw [htask] at hkey
            cases hkey
      rcases (request_spec hsend retryAttempts fates (Or.inl rfl)).1 with heq | htaken
      · exact Or.inl heq
      · exact Or.inr ⟨body, rfl, htaken⟩

end Finish

end IcebergSST
