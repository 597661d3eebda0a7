import IcebergSST.Library.StopAndWait
import IcebergSST.Submission

/-!
# Delivery of one attempt's batches

The loop's accumulators trace the events it has processed, every composed batch
describes what the batches before it did not, and the batcher and the API are the two
ends of a stop-and-wait link. Together they say which batches the API can have
accepted from an attempt, whatever the network did: a chain of them, one for each of
some moments in the attempt's history.

`G` is a condition on the moments at which batches are composed: the checkpoint that
is shipped, and the history up to there.
-/

namespace IcebergSST

open StopAndWait

variable {κ β χ ρ : Type}

structure Fetch.Traces (lease : Lease κ β χ) (h : Events κ β χ ρ) (f : Fetch κ β χ ρ) : Prop where
  coverage : coverageOf lease.referenceKey h = some f.outcome.coverage
  candidates : f.candidates = candidatesOf h
  counts : f.exit = none → f.counts = countsOf h
  published : ∀ c, f.outcome.checkpoint = some c → ConnectorEvent.checkpointAt c ∈ h

/-- What a connector call between two units does to the outcome. -/
def ConnectorEvent.note (o : FetchOutcome β χ ρ) : ConnectorEvent κ β χ ρ → FetchOutcome β χ ρ
  | .scannedFor => o.scannedFor
  | .skippedFor reason kind ref => o.skippedFor reason kind ref
  | .failedFor reason kind ref => o.failedFor reason kind ref
  | .scopeGapFor reason ref => o.scopeGapFor reason ref
  | .checkpointAt c => o.checkpointAt c
  | .cursorAt c => o.cursorAt c
  | .yield _ => o

namespace Fetch
variable {lease : Lease κ β χ} {h : Events κ β χ ρ} {f : Fetch κ β χ ρ}

theorem traces_start (lease : Lease κ β χ) (now : ℚ) :
    (start lease now : Fetch κ β χ ρ).Traces lease [] where
  coverage := rfl
  candidates := rfl
  counts := by
    intro _
    funext k
    cases k <;> rfl
  published := by
    intro c hc
    cases hc

theorem Traces.note (ht : f.Traces lease h) (hexit : f.exit = none) {e : ConnectorEvent κ β χ ρ}
    (he : e.IsUnit = false) :
    ({ f with outcome := e.note f.outcome } : Fetch κ β χ ρ).Traces lease (h ++ [e]) where
  coverage := by
    rw [coverageOf_append_singleton, ht.coverage]
    cases e <;> first | rfl | cases he
  candidates := by
    rw [candidatesOf_append, candidatesOf_singleton, e.candidates_of_not_isUnit he,
      List.append_nil, ← ht.candidates]
  counts := by
    intro _
    rw [countsOf_append, countsOf_singleton, ← ht.counts hexit]
    funext k
    cases e with
    | yield u => cases he
    | _ =>
        cases k <;>
          simp [Fetch.counts, ConnectorEvent.note, ConnectorEvent.tally, FetchOutcome.asCounts,
            FetchOutcome.scannedFor, FetchOutcome.skippedFor, FetchOutcome.failedFor,
            FetchOutcome.scopeGapFor, FetchOutcome.checkpointAt, FetchOutcome.cursorAt]
  published := by
    intro c hc
    rw [List.mem_append, List.mem_singleton]
    cases e with
    | checkpointAt c' =>
        obtain rfl : c' = c := Option.some.inj hc
        exact Or.inr rfl
    | yield u => cases he
    | _ => exact Or.inl (ht.published c hc)

/-- The loop reached the end of the unit, or was left before its candidates were added. -/
theorem Traces.inspect (ht : f.Traces lease h) (hexit : f.exit = none) (u : ContentUnit κ β) :
    ((f.inspect u).exit = none ∧ (f.inspect u).Traces lease (h ++ [.yield u]) ∧
      (f.inspect u).batcher = f.batcher.map (fun b =>
        b.boundary (candidatesOf (h ++ [.yield u])).length (f.inspect u).outcome.asCoverage
          (countsOf (h ++ [.yield u])))) ∨
    ((f.inspect u).exit ≠ none ∧ (f.inspect u).Traces lease h ∧
      (f.inspect u).batcher = f.batcher) := by
  have hcover : coverageOf lease.referenceKey (h ++ [.yield u]) =
      (ConnectorEvent.yield u : ConnectorEvent κ β χ ρ).cover f.outcome.coverage := by
    rw [coverageOf_append_singleton, ht.coverage, Option.bind_some]
  have hcand : f.candidates ++ u.candidates = candidatesOf (h ++ [.yield u]) := by
    rw [candidatesOf_append, candidatesOf_singleton, ht.candidates]
    rfl
  have hcounts : ∀ c : TaskCoverage β, countsOf (h ++ [.yield u]) = Fetch.counts
      { f with
        outcome := { f.outcome with coverage := c }
        candidates := candidatesOf (h ++ [.yield u])
        droppedBelowThreshold := f.droppedBelowThreshold + u.droppedBelowThreshold
        unitsTruncated := f.unitsTruncated + if u.truncated then 1 else 0 } := by
    intro c
    rw [countsOf_append, countsOf_singleton, ← ht.counts hexit]
    funext k
    cases k <;> simp [Fetch.counts, ConnectorEvent.tally, FetchOutcome.asCounts]
  have hdone : ∀ c : TaskCoverage β,
      (ConnectorEvent.yield u : ConnectorEvent κ β χ ρ).cover f.outcome.coverage = some c →
      Fetch.Traces lease (h ++ [.yield u])
        { f with
          outcome := { f.outcome with coverage := c }
          candidates := candidatesOf (h ++ [.yield u])
          droppedBelowThreshold := f.droppedBelowThreshold + u.droppedBelowThreshold
          unitsTruncated := f.unitsTruncated + if u.truncated then 1 else 0
          batcher := f.batcher.map (fun b => b.boundary (candidatesOf (h ++ [.yield u])).length
            c.asPayload (countsOf (h ++ [.yield u]))) } :=
    fun c hc => ⟨hcover.trans hc, rfl, fun _ => (hcounts c).symm,
      fun c' hc' => List.mem_append_left _ (ht.published c' hc')⟩
  unfold Fetch.inspect
  by_cases hcut : u.truncated ∧ ¬ u.displayTruncated
  · simp only [ConnectorEvent.cover, if_pos hcut] at hdone
    simp only [if_pos hcut, FetchOutcome.scannedButIncomplete]
    cases hinc : f.outcome.coverage.scannedButIncomplete ⟨_, failed_outputLimit⟩ u.kind
      u.locator with
    | none =>
        refine Or.inr ⟨by simp, ⟨ht.coverage, ht.candidates, ?_, ht.published⟩, rfl⟩
        intro hnone
        cases hnone
    | some c =>
        simp only [Option.map_some, hcand, ← hcounts c, FetchOutcome.asCoverage]
        exact Or.inl ⟨hexit, hdone c hinc, trivial⟩
  · simp only [ConnectorEvent.cover, if_neg hcut] at hdone
    have hcounts := hcounts f.outcome.coverage
    simp only [if_neg hcut, hcand, FetchOutcome.asCoverage, ← hcounts]
    exact Or.inl ⟨hexit, hdone _ rfl, trivial⟩

theorem inspect_exit (hexit : f.exit = none) {u : ContentUnit κ β}
    (hcover : ((ConnectorEvent.yield u : ConnectorEvent κ β χ ρ).cover f.outcome.coverage).isSome) :
    (f.inspect u).exit = none := by
  unfold Fetch.inspect
  by_cases hcut : u.truncated ∧ ¬ u.displayTruncated
  · rw [ConnectorEvent.cover, if_pos hcut] at hcover
    obtain ⟨c, hc⟩ := Option.isSome_iff_exists.1 hcover
    simp only [if_pos hcut, FetchOutcome.scannedButIncomplete, hc, Option.map_some]
    exact hexit
  · simp only [if_neg hcut]
    exact hexit

section Step
variable [DecidableEq χ] {e : ConnectorEvent κ β χ ρ} {t : Tick} {api : ApiState κ χ ρ}

theorem beforeUnit_eq (f : Fetch κ β χ ρ) (t : Tick) (api : ApiState κ χ ρ) :
    (f.beforeUnit lease t api).1 = { f with batcher := (f.beforeUnit lease t api).1.batcher } := by
  unfold beforeUnit
  split
  · split_ifs <;> rfl
  · rfl

/-- If the loop was not left at an event, its accumulators trace the event as well. -/
theorem Traces.step (ht : f.Traces lease h) (hexit : f.exit = none)
    (hstayed : (f.step lease e t api).1.exit = none) :
    (f.step lease e t api).1.Traces lease (h ++ [e]) := by
  unfold Fetch.step at hstayed ⊢
  rw [if_neg (by rw [hexit]; simp)] at hstayed ⊢
  cases e with
  | yield u =>
      by_cases hcancel : t.cancelled
      · simp [hcancel] at hstayed
      · simp only [hcancel, Bool.false_eq_true, if_false] at hstayed ⊢
        rw [beforeUnit_eq] at hstayed ⊢
        have hflushed : Traces lease h { f with batcher := (f.beforeUnit lease t api).1.batcher } :=
          ⟨ht.coverage, ht.candidates, ht.counts, ht.published⟩
        rcases hflushed.inspect hexit u with ⟨-, htraces, -⟩ | ⟨hleft, -⟩
        · exact htraces
        · exact absurd hstayed hleft
  | _ => exact ht.note hexit rfl

/-- The loop is left at an event only by a cancellation, or by a unit that nothing was
recorded for. -/
theorem step_exit (hexit : f.exit = none) (hcancel : t.cancelled = false)
    (hcover : (e.cover f.outcome.coverage).isSome) : (f.step lease e t api).1.exit = none := by
  unfold Fetch.step
  rw [if_neg (by rw [hexit]; simp)]
  cases e with
  | yield u =>
      simp only [hcancel, Bool.false_eq_true, if_false]
      rw [beforeUnit_eq]
      exact inspect_exit
        (f := { f with batcher := (f.beforeUnit lease t api).1.batcher }) hexit hcover
  | _ => exact hexit

end Step

end Fetch

/-- A boundary accounts for exactly these events. -/
structure Boundary.Describes (lease : Lease κ β χ) (h : Events κ β χ ρ) (p : Boundary) :
    Prop where
  candidates : p.candidates = (candidatesOf h).length
  coverage : ∃ c, coverageOf lease.referenceKey h = some c ∧ p.coverage = c.asPayload
  counts : p.counts = countsOf h

def Boundary.initial : Boundary :=
  ⟨0, (FetchOutcome.start none : FetchOutcome Unit Unit Unit).asCoverage, 0⟩

def Batch.boundary (batch : Batch κ χ) : Boundary := ⟨batch.covered, batch.coverage, batch.counts⟩

def Batcher.sent (b : Batcher κ χ) : Boundary := ⟨b.sentCandidates, b.sentCoverage, b.sentCounts⟩

section Boundary
variable {lease : Lease κ β χ} {h h' : Events κ β χ ρ} {p p' : Boundary}

theorem Boundary.describes_initial (lease : Lease κ β χ) :
    Boundary.initial.Describes lease ([] : Events κ β χ ρ) :=
  ⟨rfl, ⟨_, rfl, rfl⟩, rfl⟩

theorem Boundary.Describes.totals (hd : p.Describes lease h) : p.coverage.totals = totalsOf h := by
  obtain ⟨c, hc, hp⟩ := hd.coverage
  rw [hp, totals_of_coverageOf hc]

theorem Boundary.Describes.phase (hd : p.Describes lease h) : p.coverage.phase = .fetch := by
  obtain ⟨c, hc, hp⟩ := hd.coverage
  rw [hp]
  exact coverageOf_phase hc

theorem Boundary.Describes.extends (hd : p.Describes lease h) (hd' : p'.Describes lease h')
    (hp : h' <+: h) : p.coverage.Extends p'.coverage := by
  obtain ⟨c, hc, he⟩ := hd.coverage
  obtain ⟨c', hc', he'⟩ := hd'.coverage
  rw [he, he']
  exact coverageOf_payload_extends hc hc' hp

end Boundary

/-- A batch composed when the history was `h`, over a boundary already `sent`. -/
structure Batch.Composed (G : χ → Events κ β χ ρ → Prop) (lease : Lease κ β χ) (sent : Boundary)
    (h : Events κ β χ ρ) (batch : Batch κ χ) : Prop where
  describes : batch.boundary.Describes lease (cut h)
  published : ConnectorEvent.checkpointAt batch.checkpoint ∈ h
  checkpoint : batch.payload.checkpoint = batch.checkpoint
  findings : batch.payload.findings =
    ((candidatesOf h).drop sent.candidates).filter (fun c => !lease.suppresses c)
  counts : batch.payload.counts = Batcher.deltaCounts batch.counts sent.counts
    (((candidatesOf h).drop sent.candidates).countP lease.suppresses)
  coverage : batch.payload.coverage = some (coverageDelta batch.coverage sent.coverage)
  condition : G batch.checkpoint h

/-- The batches of one attempt, oldest first, each composed later than the one before
it and over what that one covered. -/
inductive Ledger (G : χ → Events κ β χ ρ → Prop) (lease : Lease κ β χ) :
    Events κ β χ ρ → List (Batch κ χ) → Boundary → Prop
  | nil : Ledger G lease [] [] Boundary.initial
  | snoc {h h' bs sent batch} : Ledger G lease h bs sent → h <+: h' →
      batch.Composed G lease sent h' → Ledger G lease h' (bs ++ [batch]) batch.boundary

def reportedCounts (lease : Lease κ β χ) (h : Events κ β χ ρ) : Counts :=
  countsOf h + Pi.single .prefiltered ((candidatesOf h).countP lease.suppresses : ℤ)

def ProgressSubmission.totals (body : ProgressSubmission κ χ) : Totals :=
  body.coverage.elim 0 CoveragePayload.totals

namespace Ledger
variable {G : χ → Events κ β χ ρ → Prop} {lease : Lease κ β χ} {h : Events κ β χ ρ}
  {bs : List (Batch κ χ)} {sent : Boundary}

theorem describes (hl : Ledger G lease h bs sent) : sent.Describes lease (cut h) := by
  cases hl with
  | nil => exact Boundary.describes_initial lease
  | snoc _ _ hc => exact hc.describes

theorem candidates_le (hl : Ledger G lease h bs sent) :
    sent.candidates = (candidatesOf h).length := by
  rw [hl.describes.candidates, candidatesOf_cut]

/-- The batches carry exactly the candidates that were not pre-filtered. -/
theorem findings (hl : Ledger G lease h bs sent) :
    bs.flatMap (fun b => b.payload.findings) =
      (candidatesOf h).filter (fun c => !lease.suppresses c) := by
  induction hl with
  | nil => rfl
  | @snoc h h' bs sent batch hl hp hc ih =>
      obtain ⟨t, rfl⟩ := hp
      have hsent := hl.candidates_le
      rw [List.flatMap_append, ih, List.flatMap_singleton, hc.findings, ← List.filter_append,
        candidatesOf_append, hsent, List.drop_left]

/-- The deltas add up to the coverage of everything before the last boundary. -/
theorem totals (hl : Ledger G lease h bs sent) :
    (bs.map (fun b => b.payload.totals)).sum = totalsOf (cut h) := by
  induction hl with
  | nil => rfl
  | @snoc h h' bs sent batch hl hp hc ih =>
      have hdelta := totals_coverageDelta (hc.describes.extends hl.describes (cut_mono hp))
      have htotals : batch.coverage.totals = totalsOf (cut h') := hc.describes.totals
      rw [List.map_append, List.sum_append, ih, List.map_singleton, List.sum_singleton,
        ProgressSubmission.totals, hc.coverage, Option.elim_some]
      change _ + (coverageDelta batch.coverage sent.coverage).totals = _
      rw [show (coverageDelta batch.coverage sent.coverage).totals =
        batch.coverage.totals - sent.coverage.totals from hdelta, htotals, hl.describes.totals]
      abel

theorem counts (hl : Ledger G lease h bs sent) :
    (bs.map (fun b => b.payload.counts)).sum = reportedCounts lease (cut h) := by
  induction hl with
  | nil =>
      funext k
      cases k <;> rfl
  | @snoc h h' bs sent batch hl hp hc ih =>
      have hsent : sent.counts = countsOf (cut h) := hl.describes.counts
      have hnow : batch.counts = countsOf (cut h') := hc.describes.counts
      have hle := hl.candidates_le
      obtain ⟨t, rfl⟩ := hp
      rw [List.map_append, List.sum_append, ih, List.map_singleton, List.sum_singleton, hc.counts,
        hsent, hnow]
      funext k
      by_cases hk : k = .prefiltered
      · subst hk
        simp only [Pi.add_apply, reportedCounts, countsOf_prefiltered, Pi.single_eq_same,
          Batcher.deltaCounts, candidatesOf_cut]
        rw [candidatesOf_append, hle, List.drop_left, List.countP_append]
        push_cast
        ring
      · have hdelta : ∀ n, Batcher.deltaCounts (countsOf (cut (h ++ t))) (countsOf (cut h)) n k =
            countsOf (cut (h ++ t)) k - countsOf (cut h) k := by
          intro n
          cases k <;> first | rfl | exact absurd rfl hk
        simp only [Pi.add_apply, reportedCounts, Pi.single_eq_of_ne hk, hdelta]
        ring

theorem composed (hl : Ledger G lease h bs sent) {batch : Batch κ χ} (hb : batch ∈ bs) :
    ∃ sent' h', h' <+: h ∧ batch.Composed G lease sent' h' := by
  induction hl with
  | nil => cases hb
  | @snoc h h' bs sent last hl hp hc ih =>
      rcases List.mem_append.1 hb with hb | hb
      · obtain ⟨sent', h₁, hh, hcomp⟩ := ih hb
        exact ⟨sent', h₁, hh.trans hp, hcomp⟩
      · obtain rfl := List.mem_singleton.1 hb
        exact ⟨sent, h', List.prefix_rfl, hc⟩

theorem composed_last (hl : Ledger G lease h bs sent) {batch : Batch κ χ}
    (hb : bs.getLast? = some batch) : ∃ sent', batch.Composed G lease sent' h := by
  cases hl with
  | nil => cases hb
  | snoc hl hp hc =>
      obtain rfl := Option.some.inj ((List.getLast?_concat).symm.trans hb)
      exact ⟨_, hc⟩

end Ledger

/-- What holds of an attempt's batcher against the API's counter. The ledger is what
the batcher takes to be accepted, the log what is. -/
structure Delivery (G : χ → Events κ β χ ρ → Prop) (lease : Lease κ β χ) (h : Events κ β χ ρ)
    (b : Batcher κ χ) (counter : ℕ) (ledger log : List (Batch κ χ)) (h₀ : Events κ β χ ρ) :
    Prop where
  link : (Link.mk b.sequence b.inFlight ledger counter log).Sound
  sent : Ledger G lease h₀ ledger b.sent
  past : h₀ <+: h
  pending : ∀ p, b.pending = some p → p.Describes lease (cut h)
  inFlight : ∀ batch, b.inFlight = some batch →
    batch.payload.sequence = b.sequence + 1 ∧
      ∃ h₁, h₀ <+: h₁ ∧ h₁ <+: h ∧ batch.Composed G lease b.sent h₁

def Batcher.Sound (G : χ → Events κ β χ ρ → Prop) (lease : Lease κ β χ) (h : Events κ β χ ρ)
    (b : Batcher κ χ) (counter : ℕ) (accepted : List (ProgressSubmission κ χ)) : Prop :=
  ∃ ledger log h₀, Delivery G lease h b counter ledger log h₀ ∧
    log.map Batch.payload = accepted

/-- The batches accepted from an attempt form a ledger of its history. -/
def Accounted (G : χ → Events κ β χ ρ → Prop) (lease : Lease κ β χ) (h : Events κ β χ ρ)
    (accepted : List (ProgressSubmission κ χ)) : Prop :=
  ∃ h₀ log sent, Ledger G lease h₀ log sent ∧ h₀ <+: h ∧ log.map Batch.payload = accepted

section Link
variable {G : χ → Events κ β χ ρ → Prop} {lease : Lease κ β χ} {h h' h₀ : Events κ β χ ρ}
  {b : Batcher κ χ} {counter : ℕ} {accepted : List (ProgressSubmission κ χ)}
  {ledger log : List (Batch κ χ)}

theorem Batcher.Sound.accounted (hs : b.Sound G lease h counter accepted) :
    Accounted G lease h accepted := by
  obtain ⟨ledger, log, h₀, hd, hlog⟩ := hs
  rcases hd.link with ⟨_, heq⟩ | ⟨batch, hflight, _, heq⟩
  · change log = ledger at heq
    exact ⟨h₀, log, b.sent, heq ▸ hd.sent, hd.past, hlog⟩
  · change log = ledger ++ [batch] at heq
    obtain ⟨_, h₁, hp, hp', hcomp⟩ := hd.inFlight batch hflight
    exact ⟨h₁, log, batch.boundary, heq ▸ hd.sent.snoc hp hcomp, hp', hlog⟩

/-- When the engine and the API agree on the sequence, what the batcher sent is what
was accepted. -/
theorem Batcher.Sound.sent_of_sequence (hs : b.Sound G lease h b.sequence accepted) :
    ∃ h₀ log, Ledger G lease h₀ log b.sent ∧ h₀ <+: h ∧ log.map Batch.payload = accepted := by
  obtain ⟨ledger, log, h₀, hd, hlog⟩ := hs
  have heq : log = ledger := hd.link.log_eq_ledger rfl
  exact ⟨h₀, log, heq ▸ hd.sent, hd.past, hlog⟩

theorem Delivery.extend (hd : Delivery G lease h b counter ledger log h₀) (hp : h <+: h')
    (hcut : cut h' = cut h) : Delivery G lease h' b counter ledger log h₀ where
  link := hd.link
  sent := hd.sent
  past := hd.past.trans hp
  pending := fun p h => hcut ▸ hd.pending p h
  inFlight := by
    intro batch hb
    obtain ⟨hseq, h₁, hp₁, hp₁', hc⟩ := hd.inFlight batch hb
    exact ⟨hseq, h₁, hp₁, hp₁'.trans hp, hc⟩

theorem Delivery.boundary (hd : Delivery G lease h b counter ledger log h₀) (hp : h <+: h')
    {p : Boundary} (hdesc : p.Describes lease (cut h')) :
    Delivery G lease h' (b.boundary p.candidates p.coverage p.counts) counter ledger log h₀ where
  link := hd.link
  sent := hd.sent
  past := hd.past.trans hp
  pending := fun q hq => by
    obtain rfl : p = q := Option.some.inj hq
    exact hdesc
  inFlight := by
    intro batch hb
    obtain ⟨hseq, h₁, hp₁, hp₁', hc⟩ := hd.inFlight batch hb
    exact ⟨hseq, h₁, hp₁, hp₁'.trans hp, hc⟩

theorem drop_append_of_le {α : Type} {n : ℕ} {l : List α} (h : n ≤ l.length) (a : α) :
    (l ++ [a]).drop n = l.drop n ++ [a] := by
  rw [List.drop_append, Nat.sub_eq_zero_of_le h, List.drop_zero]

theorem Delivery.compose (hd : Delivery G lease h b counter ledger log h₀)
    (hfree : b.inFlight = none) {batch : Batch κ χ}
    (hseq : batch.payload.sequence = b.sequence + 1) (hc : batch.Composed G lease b.sent h) :
    Delivery G lease h { b with inFlight := some batch } counter ledger log h₀ where
  link := hd.link.offer hfree batch
  sent := hd.sent
  past := hd.past
  pending := hd.pending
  inFlight := by
    intro batch' hb
    obtain rfl : batch = batch' := Option.some.inj hb
    exact ⟨hseq, h, hd.past, List.prefix_rfl, hc⟩

/-- One copy of the in-flight batch reaches the API. -/
theorem Delivery.receive {batch : Batch κ χ} (hd : Delivery G lease h b counter ledger log h₀)
    (hflight : b.inFlight = some batch) (hseq : counter + 1 = batch.payload.sequence) :
    Delivery G lease h b (counter + 1) ledger (log ++ [batch]) h₀ where
  link := by
    have hr := hd.link.receive
    have hnum := (hd.inFlight batch hflight).1
    have hc : counter = b.sequence := by omega
    simpa only [Link.receive, hflight, hc, if_true] using hr
  sent := hd.sent
  past := hd.past
  pending := hd.pending
  inFlight := hd.inFlight

theorem Delivery.answer {batch : Batch κ χ} (hd : Delivery G lease h b counter ledger log h₀)
    (hflight : b.inFlight = some batch) :
    ∃ ledger' h₁, Delivery G lease h (b.acknowledge batch counter) counter ledger' log h₁ := by
  have ha := hd.link.answer
  obtain ⟨hnum, h₁, hp, hp', hc⟩ := hd.inFlight batch hflight
  by_cases hlt : counter < b.sequence + 1
  · have hack : b.acknowledge batch counter = { b with inFlight := none } := by
      rw [Batcher.acknowledge, hnum, if_pos hlt]
    rw [hack]
    refine ⟨ledger, h₀, ?_, hd.sent, hd.past, hd.pending, ?_⟩
    · simpa only [Link.answer, hflight, if_pos hlt] using ha
    · intro _ hnone
      cases hnone
  · have hack : b.acknowledge batch counter =
        { b with
          sequence := counter
          flushedCheckpoint := some batch.checkpoint
          sentCoverage := batch.coverage
          sentCounts := batch.counts
          sentCandidates := batch.covered
          pending := none
          inFlight := none } := by
      rw [Batcher.acknowledge, hnum, if_neg hlt]
    rw [hack]
    refine ⟨ledger ++ [batch], h₁, ?_, hd.sent.snoc hp hc, hp', ?_, ?_⟩
    · simpa only [Link.answer, hflight, if_neg hlt] using ha
    all_goals
      intro _ hnone
      cases hnone

end Link

section Steps
variable {G : χ → Events κ β χ ρ → Prop} {lease : Lease κ β χ} {h : Events κ β χ ρ}
  {b : Batcher κ χ} {api : ApiState κ χ ρ} {base : ℕ}

/-- The batcher is sound against an API state, from whose first `base` batches the
attempt started. -/
def Batcher.SoundAt (G : χ → Events κ β χ ρ → Prop) (lease : Lease κ β χ) (h : Events κ β χ ρ)
    (b : Batcher κ χ) (base : ℕ) (api : ApiState κ χ ρ) : Prop :=
  base ≤ api.batches.length ∧
    b.Sound G lease h api.db.task.checkpointSequence (api.batches.drop base)

theorem Batcher.SoundAt.submitProgress (hs : b.SoundAt G lease h base api) {batch : Batch κ χ}
    (hflight : b.inFlight = some batch) (engine : EngineId) :
    b.SoundAt G lease h base (api.submitProgress engine batch.payload).1 := by
  rcases submitProgress_cases api engine batch.payload with ⟨heq, _⟩ | ⟨htaken, _⟩
  · rw [heq]
    exact hs
  · obtain ⟨hbase, ledger, log, h₀, hd, hlog⟩ := hs
    obtain ⟨coverage, _, htask⟩ := htaken.task
    refine ⟨?_, ledger, log ++ [batch], h₀, ?_, ?_⟩
    · rw [htaken.batches, List.length_append]
      omega
    · have hseq := htaken.sequence
      rw [htask]
      change Delivery G lease h b batch.payload.sequence ledger (log ++ [batch]) h₀
      rw [← hseq]
      exact hd.receive hflight hseq
    · rw [htaken.batches, drop_append_of_le hbase, List.map_append, hlog, List.map_singleton]

theorem Batcher.SoundAt.deliver (hs : b.SoundAt G lease h base api) (engine : EngineId)
    (fates : List Fate) :
    (b.deliver engine fates api).1.SoundAt G lease h base (b.deliver engine fates api).2 := by
  cases hflight : b.inFlight with
  | none => simpa only [Batcher.deliver, hflight] using hs
  | some batch =>
      have hsend : ∀ s : ApiState κ χ ρ, b.SoundAt G lease h base s →
          b.SoundAt G lease h base (s.submitProgress engine batch.payload).1 :=
        fun s hs => hs.submitProgress hflight engine
      obtain ⟨hkept, hok⟩ := request_spec hsend retryAttempts fates hs
      cases hreq : request (fun s : ApiState κ χ ρ => s.submitProgress engine batch.payload)
          retryAttempts fates api with
      | mk api' answer =>
          rw [hreq] at hkept hok
          simp only [Batcher.deliver, hflight, hreq]
          cases answer with
          | error _ => exact hkept
          | ok accepted =>
              -- the answer is the counter of the state the request ended in
              obtain ⟨s', hs', hsent⟩ := hok accepted rfl
              have hnum : accepted.sequence = api'.db.task.checkpointSequence := by
                rcases submitProgress_cases s' engine batch.payload with ⟨heq, ha⟩ | ⟨htaken, ha⟩
                · rw [hsent] at heq ha
                  change api' = s' at heq
                  rw [ha accepted rfl, heq]
                · rw [hsent] at ha htaken
                  obtain ⟨coverage, _, htask⟩ := htaken.task
                  rw [htask, Except.ok.inj ha]
              obtain ⟨hbase, ledger, log, h₀, hd, hlog⟩ := hkept
              obtain ⟨ledger', h₁, hd'⟩ := hd.answer hflight
              exact ⟨hbase, ledger', log, h₁, hnum ▸ hd', hlog⟩

end Steps

end IcebergSST
