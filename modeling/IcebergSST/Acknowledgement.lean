import IcebergSST.StoredBatches

/-!
# What an acknowledgement identifies

An engine reads a counter at or above the number it offered as the word that its batch
is stored. The counter does not say whose batch: the conditional update names the task,
the engine and the number, and two attempts can share an engine. As long as the API
decides no batch of an attempt that lost the lease while the row names its engine again,
what is stored under an acknowledged number is the batch that was offered.
-/

namespace IcebergSST

variable {κ β χ ρ : Type}

namespace Wire

def recorded (w : Wire κ β χ ρ) (n : ℕ) : Option (StoredBatch κ χ) :=
  w.batches.find? fun s => s.body.sequence = n

def StoredFrom (w : Wire κ β χ ρ) (i : ℕ) (body : ProgressSubmission κ χ) : Prop :=
  ∃ s ∈ w.batches, s.sender = i ∧ s.body = body

/-- What every attempt's ledger advanced past is recorded as its own, and its report
leaves nothing else out. -/
structure AcksIdentify (w : Wire κ β χ ρ) : Prop where
  acknowledged : ∀ (i : ℕ) (r : Worker κ β χ ρ), w.workers[i]? = some r →
    ∀ body ∈ r.acknowledged,
      ∃ s, w.recorded body.sequence = some s ∧ s.sender = i ∧ s.body = body
  omitted : ∀ (i : ℕ) (r : Worker κ β χ ρ), w.workers[i]? = some r → ∀ exit body,
    r.fetch.report r.lease exit = some body →
      r.acknowledged.flatMap ProgressSubmission.findings ++ body.findings =
        r.lease.kept r.fetch.candidates

/-- A batch is decided under the identity the row names only for the attempt the last
lease was granted to. -/
def fromHolder (w : Wire κ β χ ρ) : WireAction κ β χ ρ → Bool
  | .commit k _ =>
      match w.requests[k]? with
      | some { engine, message := .progress i _, stage := .checked _ _ } =>
          w.db.task.engineId = some engine → i + 1 = w.workers.length
      | _ => true
  | _ => true

/-- A batch that can never be stored: the task is over, and its counter below. -/
def Dead (w : Wire κ β χ ρ) (body : ProgressSubmission κ χ) : Prop :=
  w.db.task.status.Terminal ∧ w.db.task.checkpointSequence < body.sequence

/-- The link between the row's counter and a batcher, whose batch in flight may be stored
without its knowing. -/
def LinkedTo (w : Wire κ β χ ρ) (i : ℕ) (b : Batcher κ χ) : Prop :=
  w.db.task.checkpointSequence = b.sequence ∨
    ∃ batch, b.inFlight = some batch ∧ w.db.task.checkpointSequence = b.sequence + 1 ∧
      w.StoredFrom i batch.payload

/-- A batch an attempt sent: stored, in flight, or never to be stored. -/
def Offered (w : Wire κ β χ ρ) (i : ℕ) (r : Worker κ β χ ρ) (body : ProgressSubmission κ χ) :
    Prop :=
  w.StoredFrom i body ∨
    (∃ b batch, r.fetch.batcher = some b ∧ b.inFlight = some batch ∧ batch.payload = body) ∨
    w.Dead body

def Answered (w : Wire κ β χ ρ) (i : ℕ) (body : ProgressSubmission κ χ) (n : ℕ) : Prop :=
  (w.StoredFrom i body ∧ body.sequence ≤ n) ∨ (n < body.sequence ∧ w.Dead body)

/-- Everything said of an attempt: of every one, and of the last that was leased. -/
structure Attends (w : Wire κ β χ ρ) (i : ℕ) (r : Worker κ β χ ρ) : Prop where
  acknowledged : ∀ body ∈ r.acknowledged, w.StoredFrom i body
  call : ∀ unit k, r.activity = .delivering unit (some k) →
    ∃ (q : Request κ χ ρ) (b : Batcher κ χ) (batch : Batch κ χ),
    w.requests[k]? = some q ∧ q.message = .progress i batch.payload ∧
      r.fetch.batcher = some b ∧ b.inFlight = some batch
  link : i + 1 = w.workers.length → ∀ b, r.fetch.batcher = some b → w.LinkedTo i b
  offers : i + 1 = w.workers.length → ∀ q ∈ w.requests, ∀ body,
    q.message = .progress i body → w.Offered i r body

structure Linked (w : Wire κ β χ ρ) : Prop where
  queued : w.db.task.status = .queued → w.db.task.engineId = none
  workers : ∀ i r, w.workers[i]? = some r → w.Attends i r
  senders : ∀ q ∈ w.requests, ∀ i body, q.message = .progress i body → i < w.workers.length
  answers : ∀ q ∈ w.requests, ∀ i body n, q.message = .progress i body →
    q.stage = .answered (.ok n) → w.Answered i body n

section Steps
variable {w : Wire κ β χ ρ}

theorem Dead.rewrite {body : ProgressSubmission κ χ} (hd : w.Dead body) {db : Db χ ρ}
    (hk : w.db.task.Keeps db.task) : Dead ({ w with db } : Wire κ β χ ρ) body := by
  refine ⟨?_, hk.sequence ▸ hd.2⟩
  by_contra hlive
  have hlive' := (hk.coverage (by simpa using hlive)).1
  rw [hd.1] at hlive'
  cases hlive'

theorem Linked.rewrite (hl : w.Linked) {db : Db χ ρ} (hk : w.db.task.Keeps db.task)
    (hqueued : db.task.status = .queued → db.task.engineId = none) :
    ({ w with db } : Wire κ β χ ρ).Linked where
  queued := hqueued
  workers := by
    intro i r hr
    obtain ⟨hack, hcall, hlink, hoffers⟩ := hl.workers i r hr
    refine ⟨hack, hcall, fun hlast b hb => ?_, fun hlast q hq body hm => ?_⟩
    · rcases hlink hlast b hb with h | ⟨batch, hflight, h, hst⟩
      · exact Or.inl (hk.sequence.trans h)
      · exact Or.inr ⟨batch, hflight, hk.sequence.trans h, hst⟩
    · rcases hoffers hlast q hq body hm with h | h | h
      · exact Or.inl h
      · exact Or.inr (Or.inl h)
      · exact Or.inr (Or.inr (h.rewrite hk))
  senders := hl.senders
  answers := by
    intro q hq i body n hm hstage
    rcases hl.answers q hq i body n hm hstage with h | ⟨hlt, hd⟩
    · exact Or.inl h
    · exact Or.inr ⟨hlt, hd.rewrite hk⟩

theorem Linked.tally (hl : w.Linked) (tallies : IngestOutcome) (results : List (StoredResults κ ρ))
    (others : Counts) (otherTallies : IngestOutcome) :
    ({ w with tallies, results, others, otherTallies } : Wire κ β χ ρ).Linked where
  queued := hl.queued
  workers := by
    intro i r hr
    obtain ⟨hack, hcall, hlink, hoffers⟩ := hl.workers i r hr
    exact ⟨hack, hcall, hlink, hoffers⟩
  senders := hl.senders
  answers := hl.answers

/-- Requests may be added, and those there are may move on, as long as no new batch is
among them. -/
theorem Linked.requests (hl : w.Linked) {requests : List (Request κ χ ρ)}
    (hkept : ∀ (k : ℕ) (q : Request κ χ ρ), w.requests[k]? = some q →
      ∃ q' : Request κ χ ρ, requests[k]? = some q' ∧ q'.message = q.message)
    (hold : ∀ q' ∈ requests, ∀ i body, q'.message = .progress i body →
      ∃ q ∈ w.requests, q.message = .progress i body)
    (hans : ∀ q' ∈ requests, ∀ i body n, q'.message = .progress i body →
      q'.stage = .answered (.ok n) → w.Answered i body n) :
    ({ w with requests } : Wire κ β χ ρ).Linked where
  queued := hl.queued
  workers := by
    intro i r hr
    obtain ⟨hack, hcall, hlink, hoffers⟩ := hl.workers i r hr
    refine ⟨hack, fun unit k hact => ?_, hlink, fun hlast q' hq' body hm => ?_⟩
    · obtain ⟨q, b, batch, hq, hm, hb, hflight⟩ := hcall unit k hact
      obtain ⟨q', hq', hm'⟩ := hkept k q hq
      exact ⟨q', b, batch, hq', hm'.trans hm, hb, hflight⟩
    · obtain ⟨q, hq, hm'⟩ := hold q' hq' i body hm
      exact hoffers hlast q hq body hm'
  senders := by
    intro q' hq' i body hm
    obtain ⟨q, hq, hm'⟩ := hold q' hq' i body hm
    exact hl.senders q hq i body hm'
  answers := hans

theorem Linked.setRequest (hl : w.Linked) {k : ℕ} {q : Request κ χ ρ} (hq : w.requests[k]? = some q)
    (stage : Stage χ ρ) (hans : ∀ i body n, q.message = .progress i body →
      stage = .answered (.ok n) → w.Answered i body n) :
    ({ w with requests := w.requests.set k { q with stage } } : Wire κ β χ ρ).Linked := by
  have hlt := (List.getElem?_eq_some_iff.1 hq).1
  apply hl.requests
  · intro k' q' hq'
    by_cases heq : k = k'
    · subst heq
      rw [hq] at hq'
      obtain rfl := Option.some.inj hq'
      exact ⟨_, List.getElem?_set_self hlt, rfl⟩
    · exact ⟨q', by rw [List.getElem?_set_ne heq, hq'], rfl⟩
  · intro q' hq' i body hm
    rcases List.mem_or_eq_of_mem_set hq' with hmem | rfl
    · exact ⟨q', hmem, hm⟩
    · exact ⟨q, List.mem_of_getElem? hq, hm⟩
  · intro q' hq' i body n hm hstage
    rcases List.mem_or_eq_of_mem_set hq' with hmem | rfl
    · exact hl.answers q' hmem i body n hm hstage
    · exact hans i body n hm hstage

theorem Linked.setWorker (hl : w.Linked) {i : ℕ} {r' : Worker κ β χ ρ} (ha : w.Attends i r') :
    ({ w with workers := w.workers.set i r' } : Wire κ β χ ρ).Linked where
  queued := hl.queued
  workers := by
    intro j r hr
    have hcases : w.Attends j r := by
      by_cases heq : i = j
      · subst heq
        have hlt := (List.getElem?_eq_some_iff.1 hr).1
        rw [List.length_set] at hlt
        rw [List.getElem?_set_self hlt] at hr
        obtain rfl := Option.some.inj hr
        exact ha
      · rw [List.getElem?_set_ne heq] at hr
        exact hl.workers j r hr
    obtain ⟨hack, hcall, hlink, hoffers⟩ := hcases
    refine ⟨hack, hcall, fun hlast => hlink ?_, fun hlast => hoffers ?_⟩ <;>
      simpa only [List.length_set] using hlast
  senders := by
    intro q hq i body hm
    change i < (w.workers.set _ _).length
    rw [List.length_set]
    exact hl.senders q hq i body hm
  answers := hl.answers

/-- A new attempt starts at the counter of the row, with no batch sent. -/
theorem Linked.addWorker (hl : w.Linked) {r : Worker κ β χ ρ}
    (hfresh : r.acknowledged = [] ∧ r.activity = .looping)
    (hseq : ∀ b, r.fetch.batcher = some b → w.db.task.checkpointSequence = b.sequence) :
    ({ w with workers := w.workers ++ [r] } : Wire κ β χ ρ).Linked where
  queued := hl.queued
  workers := by
    intro j r' hr'
    change (w.workers ++ [r])[j]? = some r' at hr'
    have hbound := (List.getElem?_eq_some_iff.1 hr').1
    rw [List.length_append, List.length_singleton] at hbound
    by_cases hlt : j < w.workers.length
    · rw [List.getElem?_append_left hlt] at hr'
      obtain ⟨hack, hcall, _, _⟩ := hl.workers j r' hr'
      refine ⟨hack, hcall, fun hlast => absurd hlast ?_, fun hlast => absurd hlast ?_⟩ <;>
        simp only [List.length_append, List.length_singleton] <;> omega
    · obtain rfl : j = w.workers.length := by omega
      rw [List.getElem?_concat_length] at hr'
      obtain rfl := Option.some.inj hr'
      refine ⟨fun body hbody => ?_, fun unit k hact => ?_, fun _ b hb => Or.inl (hseq b hb),
        fun _ q hq body hm => ?_⟩
      · rw [hfresh.1] at hbody
        cases hbody
      · rw [hfresh.2] at hact
        cases hact
      · have hlt := hl.senders q hq _ body hm
        omega
  senders := by
    intro q hq i body hm
    have hlt := hl.senders q hq i body hm
    change i < (w.workers ++ [r]).length
    rw [List.length_append]
    omega
  answers := hl.answers

theorem Attends.step [DecidableEq χ] {i : ℕ} {r r' : Worker κ β χ ρ} (ha : w.Attends i r)
    {a : WorkerAction κ β χ ρ} (h : r.step a = some r') : w.Attends i r' := by
  obtain ⟨hsome, hack, hact⟩ := Worker.step_frame h
  refine ⟨hack ▸ ha.acknowledged, fun unit k h => absurd h (hact unit k), fun hlast b' hb' => ?_,
    fun hlast q hq body hm => ?_⟩
  · obtain ⟨b, hb, hseq, hflight⟩ := Worker.step_batcher h hb'
    rcases ha.link hlast b hb with hc | ⟨batch, hbatch, hc, hst⟩
    · exact Or.inl (hc.trans hseq.symm)
    · have hkept : b'.inFlight = some batch := by
        rcases hflight with hf | hf
        · rw [hf, hbatch]
        · rw [hf] at hbatch
          cases hbatch
      exact Or.inr ⟨batch, hkept, by rw [hc, hseq], hst⟩
  · rcases ha.offers hlast q hq body hm with hst | ⟨b, batch, hb, hbatch, hbody⟩ | hd
    · exact Or.inl hst
    · rw [hb] at hsome
      obtain ⟨b', hb'⟩ := Option.isSome_iff_exists.1 hsome
      obtain ⟨b₀, hb₀, _, hflight⟩ := Worker.step_batcher h hb'
      obtain rfl : b = b₀ := Option.some.inj (hb.symm.trans hb₀)
      refine Or.inr (Or.inl ⟨b', batch, hb', ?_, hbody⟩)
      rcases hflight with hf | hf
      · rw [hf, hbatch]
      · rw [hf] at hbatch
        cases hbatch
    · exact Or.inr (Or.inr hd)

theorem Linked.post (hl : w.Linked) (engine : EngineId) (body : ResultsSubmission κ ρ) :
    ({ w with requests := w.requests ++ [{ engine, message := .results body }] } :
      Wire κ β χ ρ).Linked := by
  apply hl.requests
  · intro k q hq
    exact ⟨q, by rw [List.getElem?_append_left (List.getElem?_eq_some_iff.1 hq).1, hq], rfl⟩
  · intro q' hq' i body hm
    rcases List.mem_append.1 hq' with hmem | hnew
    · exact ⟨q', hmem, hm⟩
    · obtain rfl := List.mem_singleton.1 hnew
      cases hm
  · intro q' hq' i body n hm hstage
    rcases List.mem_append.1 hq' with hmem | hnew
    · exact hl.answers q' hmem i body n hm hstage
    · obtain rfl := List.mem_singleton.1 hnew
      cases hm

theorem Linked.addBatch (hl : w.Linked) {i : ℕ} {r : Worker κ β χ ρ} (hr : w.workers[i]? = some r)
    {b : Batcher κ χ} {batch : Batch κ χ} (hb : r.fetch.batcher = some b)
    (hflight : b.inFlight = some batch) (engine : EngineId) :
    ({ w with requests := w.requests ++ [{ engine, message := .progress i batch.payload }] } :
      Wire κ β χ ρ).Linked where
  queued := hl.queued
  workers := by
    intro j r' hr'
    obtain ⟨hack, hcall, hlink, hoffers⟩ := hl.workers j r' hr'
    refine ⟨hack, fun unit k hact => ?_, hlink, fun hlast q hq body hm => ?_⟩
    · obtain ⟨q, b', batch', hq, hm, hb', hflight'⟩ := hcall unit k hact
      have hlt := (List.getElem?_eq_some_iff.1 hq).1
      exact ⟨q, b', batch', by rw [List.getElem?_append_left hlt, hq], hm, hb', hflight'⟩
    · rcases List.mem_append.1 hq with hold | hnew
      · exact hoffers hlast q hold body hm
      · obtain rfl := List.mem_singleton.1 hnew
        obtain ⟨rfl, rfl⟩ := Message.progress.inj hm
        obtain rfl := Option.some.inj (hr.symm.trans hr')
        exact Or.inr (Or.inl ⟨b, batch, hb, hflight, rfl⟩)
  senders := by
    intro q hq j body hm
    rcases List.mem_append.1 hq with hold | hnew
    · exact hl.senders q hold j body hm
    · obtain rfl := List.mem_singleton.1 hnew
      obtain ⟨rfl, _⟩ := Message.progress.inj hm
      exact (List.getElem?_eq_some_iff.1 hr).1
  answers := by
    intro q hq j body n hm hstage
    rcases List.mem_append.1 hq with hold | hnew
    · exact hl.answers q hold j body n hm hstage
    · obtain rfl := List.mem_singleton.1 hnew
      cases hstage

theorem Attends.calling {i : ℕ} {r : Worker κ β χ ρ} (ha : w.Attends i r) {k : ℕ}
    {q : Request κ χ ρ} {b : Batcher κ χ} {batch : Batch κ χ} (hq : w.requests[k]? = some q)
    (hm : q.message = .progress i batch.payload) (hb : r.fetch.batcher = some b)
    (hflight : b.inFlight = some batch) : w.Attends i (r.call k) := by
  have hfetch := Worker.call_fetch (r := r) k
  have hack : (r.call k).acknowledged = r.acknowledged := by
    unfold Worker.call
    split <;> rfl
  refine ⟨hack ▸ ha.acknowledged, fun unit k' hact => ?_, fun hlast => ?_, fun hlast => ?_⟩
  · have hk : k' = k ∨ r.activity = .delivering unit (some k') := by
      unfold Worker.call at hact
      split at hact
      · obtain ⟨_, h⟩ := Activity.delivering.inj hact
        exact Or.inl (Option.some.inj h).symm
      · exact Or.inr hact
    rw [hfetch]
    rcases hk with rfl | hk
    · exact ⟨q, b, batch, hq, hm, hb, hflight⟩
    · exact ha.call unit k' hk
  · rw [hfetch]
    exact ha.link hlast
  · unfold Offered
    rw [hfetch]
    exact ha.offers hlast

/-- The ledger advances past a batch the API stored, and past no other. -/
theorem Attends.receive (hn : w.Numbered) (hl : w.Linked) {i k : ℕ} {r r' : Worker κ β χ ρ}
    {unit : ContentUnit κ β} {q : Request κ χ ρ} {answer : Except Refusal ℕ} {rearmed : ℚ}
    (hr : w.workers[i]? = some r) (hact : r.activity = .delivering unit (some k))
    (hq : w.requests[k]? = some q) (hstage : q.stage = .answered answer)
    (h : r.receive answer rearmed = some r') : w.Attends i r' := by
  have ha := hl.workers i r hr
  have hmem := List.mem_of_getElem? hq
  obtain ⟨q', b, batch, hq', hm, hb, hflight⟩ := ha.call unit k hact
  obtain rfl : q = q' := Option.some.inj (hq.symm.trans hq')
  obtain ⟨hsome, hidle⟩ := Worker.receive_frame h
  obtain ⟨b', hb'⟩ := Option.isSome_iff_exists.1 hsome
  obtain ⟨b₀, hb₀, hcases⟩ := Worker.receive_batcher h hb'
  obtain rfl : b = b₀ := Option.some.inj (hb.symm.trans hb₀)
  have hnum := ((hn.workers r (List.mem_of_getElem? hr)).1.kept b hb).inFlight hflight
  rcases hcases with ⟨hseq, hsame, hack⟩ | ⟨batch', n, hflight', rfl, hfree, hcases⟩
  · -- an error: nothing moved
    refine ⟨hack ▸ ha.acknowledged, fun u k' h' => absurd h' (hidle u k'), fun hlast b'' hb'' => ?_,
      fun hlast q₁ hq₁ body hm₁ => ?_⟩
    · obtain rfl : b' = b'' := Option.some.inj (hb'.symm.trans hb'')
      unfold LinkedTo
      rw [hseq, hsame]
      exact ha.link hlast b hb
    · rcases ha.offers hlast q₁ hq₁ body hm₁ with hst | ⟨b₁, batch₁, hb₁, hf₁, hbody⟩ | hd
      · exact Or.inl hst
      · obtain rfl : b = b₁ := Option.some.inj (hb.symm.trans hb₁)
        exact Or.inr (Or.inl ⟨b', batch₁, hb', hsame.trans hf₁, hbody⟩)
      · exact Or.inr (Or.inr hd)
  · obtain rfl : batch = batch' := Option.some.inj (hflight.symm.trans hflight')
    have hans := hl.answers q hmem i batch.payload n hm hstage
    have hle := (hn.requests q hmem).answered n hstage
    have hoffers : ∀ body, (w.Answered i batch.payload n → w.Offered i r' batch.payload) →
        w.Offered i r body → w.Offered i r' body := by
      rintro body hsettled (hst | ⟨b₁, batch₁, hb₁, hf₁, rfl⟩ | hd)
      · exact Or.inl hst
      · obtain rfl : b = b₁ := Option.some.inj (hb.symm.trans hb₁)
        obtain rfl : batch = batch₁ := Option.some.inj (hflight.symm.trans hf₁)
        exact hsettled hans
      · exact Or.inr (Or.inr hd)
    rcases hcases with ⟨hlt, hseq, hack⟩ | ⟨hge, hseq, hack⟩
    · -- refused: the task is over
      have hdead : w.Dead batch.payload := by
        rcases hans with ⟨_, hge⟩ | ⟨_, hd⟩
        · omega
        · exact hd
      refine ⟨hack ▸ ha.acknowledged, fun u k' h' => absurd h' (hidle u k'),
        fun hlast b'' hb'' => Or.inl ?_, fun hlast q₁ hq₁ body hm₁ =>
          hoffers body (fun _ => Or.inr (Or.inr hdead)) (ha.offers hlast q₁ hq₁ body hm₁)⟩
      obtain rfl : b' = b'' := Option.some.inj (hb'.symm.trans hb'')
      have hbelow := hdead.2
      rcases ha.link hlast b hb with hc | ⟨_, _, hc, _⟩ <;> omega
    · have hst : w.StoredFrom i batch.payload := by
        rcases hans with ⟨hst, _⟩ | ⟨hlt, _⟩
        · exact hst
        · omega
      refine ⟨fun body hbody => ?_, fun u k' h' => absurd h' (hidle u k'),
        fun hlast b'' hb'' => Or.inl ?_, fun hlast q₁ hq₁ body hm₁ =>
          hoffers body (fun _ => Or.inl hst) (ha.offers hlast q₁ hq₁ body hm₁)⟩
      · rw [hack] at hbody
        rcases List.mem_append.1 hbody with hold | hnew
        · exact ha.acknowledged body hold
        · obtain rfl := List.mem_singleton.1 hnew
          exact hst
      · obtain rfl : b' = b'' := Option.some.inj (hb'.symm.trans hb'')
        rcases ha.link hlast b hb with hc | ⟨_, _, hc, _⟩ <;> omega

theorem StoredFrom.sequence_le (hn : w.Numbered) {i : ℕ} {body : ProgressSubmission κ χ}
    (hst : w.StoredFrom i body) : body.sequence ≤ w.db.task.checkpointSequence := by
  obtain ⟨s, hs, _, rfl⟩ := hst
  have hmem : s.body.sequence ∈ w.batches.map fun s => s.body.sequence :=
    List.mem_map_of_mem hs
  rw [hn.counted.numbered, List.mem_range'_1] at hmem
  have hseq := hn.sequence
  omega

/-- Decided without being stored, a batch of the attempt that holds the lease is the one
that is stored under its number, or the task is over. -/
theorem Linked.answered (hn : w.Numbered) (hl : w.Linked) {i : ℕ} {q : Request κ χ ρ}
    (hq : q ∈ w.requests) {body : ProgressSubmission κ χ} (hm : q.message = .progress i body)
    (hlast : i + 1 = w.workers.length) (hengine : w.db.task.engineId = some q.engine)
    (hnext : w.db.task.status.Leased → w.db.task.checkpointSequence + 1 ≠ body.sequence) :
    w.Answered i body w.db.task.checkpointSequence := by
  have hlt := hl.senders q hq i body hm
  have hr := List.getElem?_eq_getElem hlt
  have ha := hl.workers i _ hr
  rcases ha.offers hlast q hq body hm with hst | ⟨b, batch, hb, hflight, rfl⟩ | hd
  · exact Or.inl ⟨hst, hst.sequence_le hn⟩
  · have hnum := ((hn.workers _ (List.mem_of_getElem? hr)).1.kept b hb).inFlight hflight
    rcases ha.link hlast b hb with hc | ⟨batch', hflight', hc, hst⟩
    · have hover : w.db.task.status.Terminal = true := by
        have hnot : ¬ w.db.task.status.Leased := fun h => hnext h (by omega)
        cases hs : w.db.task.status with
        | queued =>
            have hnone := hl.queued hs
            rw [hengine] at hnone
            cases hnone
        | leased => exact absurd (by rw [hs]; rfl) hnot
        | running => exact absurd (by rw [hs]; rfl) hnot
        | completed => rfl
        | failed => rfl
        | cancelled => rfl
      exact Or.inr ⟨by omega, hover, by omega⟩
    · obtain rfl : batch = batch' := Option.some.inj (hflight.symm.trans hflight')
      exact Or.inl ⟨hst, by omega⟩
  · exact Or.inr ⟨hd.2, hd⟩

theorem overtake_message (q : Request κ χ ρ) : q.overtake.message = q.message := by
  unfold Request.overtake
  split <;> rfl

/-- The requests after a batch is stored are those there were, some of them further on. -/
theorem storeBatch_getElem? {k k' : ℕ} {q q' : Request κ χ ρ} (hq : w.requests[k]? = some q)
    (i : ℕ) (body : ProgressSubmission κ χ) (db : Db χ ρ) (outcome : IngestOutcome)
    (hq' : w.requests[k']? = some q') : ∃ q'' : Request κ χ ρ,
      (w.storeBatch k q i body db outcome).requests[k']? = some q'' ∧
        q''.message = q'.message := by
  have hmap : (w.requests.map Request.overtake)[k']? = some q'.overtake := by
    rw [List.getElem?_map, hq', Option.map_some]
  change ∃ q'' : Request κ χ ρ, ((w.requests.map Request.overtake).set k _)[k']? = some q'' ∧ _
  by_cases heq : k = k'
  · subst heq
    rw [hq] at hq'
    obtain rfl := Option.some.inj hq'
    exact ⟨_, List.getElem?_set_self (List.getElem?_eq_some_iff.1 hmap).1, rfl⟩
  · exact ⟨_, by rw [List.getElem?_set_ne heq, hmap], overtake_message q'⟩

theorem storeBatch_mem {k : ℕ} {q q' : Request κ χ ρ} (hq : w.requests[k]? = some q) (i : ℕ)
    (body : ProgressSubmission κ χ) (db : Db χ ρ) (outcome : IngestOutcome)
    (hq' : q' ∈ (w.storeBatch k q i body db outcome).requests) :
    ∃ q₀ ∈ w.requests, q'.message = q₀.message ∧ ∀ n, q'.stage = .answered (.ok n) →
      q₀.stage = .answered (.ok n) ∨ (q₀ = q ∧ n = body.sequence) := by
  rcases List.mem_or_eq_of_mem_set hq' with hmem | rfl
  · obtain ⟨q₀, hq₀, rfl⟩ := List.mem_map.1 hmem
    refine ⟨q₀, hq₀, overtake_message q₀, fun n h => ?_⟩
    unfold Request.overtake at h
    split at h
    · cases h
    · exact Or.inl h
  · refine ⟨q, List.mem_of_getElem? hq, rfl, fun n h => Or.inr ⟨rfl, ?_⟩⟩
    exact (Except.ok.inj (Stage.answered.inj h)).symm

theorem Linked.storeBatch (hn : w.Numbered) (hl : w.Linked) {i k : ℕ} {q : Request κ χ ρ}
    (hq : w.requests[k]? = some q) {body : ProgressSubmission κ χ}
    (hm : q.message = .progress i body) (hlast : i + 1 = w.workers.length) {row : ScanTask χ ρ}
    {db : Db χ ρ} (hst : BatchStored row w.db db q.engine body) (outcome : IngestOutcome) :
    (w.storeBatch k q i body db outcome).Linked := by
  have hlive := ScanTaskStatus.not_terminal_of_leased hst.leased
  have hnum := hst.sequence
  obtain ⟨coverage, htask, _⟩ := hst.task
  have hseq : db.task.checkpointSequence = body.sequence := by rw [htask]
  have hnotdead : ∀ body', ¬ w.Dead body' := by
    intro body' hd
    rw [hd.1] at hlive
    cases hlive
  have hmono : ∀ j body', w.StoredFrom j body' →
      (w.storeBatch k q i body db outcome).StoredFrom j body' := fun j body' ⟨s, hs, h⟩ =>
    ⟨s, List.mem_append_left _ hs, h⟩
  have hself : (w.storeBatch k q i body db outcome).StoredFrom i body :=
    ⟨_, List.mem_append_right _ (List.mem_singleton_self _), rfl, rfl⟩
  refine ⟨fun h => ?_, fun j r hr => ?_, fun q' hq' j body' hm' => ?_,
    fun q' hq' j body' n hm' hstage => ?_⟩
  · have hleased := hst.leased
    change db.task.status = .queued at h
    rw [htask] at h
    change w.db.task.status = .queued at h
    rw [h] at hleased
    cases hleased
  · obtain ⟨hack, hcall, hlink, hoffers⟩ := hl.workers j r hr
    refine ⟨fun body' h => hmono j body' (hack body' h), fun unit k' hact => ?_,
      fun hlast' b hb => ?_, fun hlast' q' hq' body' hm' => ?_⟩
    · obtain ⟨q', b, batch, hq', hm', hb, hflight⟩ := hcall unit k' hact
      obtain ⟨q'', hq'', hm''⟩ := storeBatch_getElem? hq i body db outcome hq'
      exact ⟨q'', b, batch, hq'', hm''.trans hm', hb, hflight⟩
    · -- the last attempt is the one whose batch was stored
      change j + 1 = w.workers.length at hlast'
      obtain rfl : j = i := by omega
      rcases hoffers hlast q (List.mem_of_getElem? hq) body hm with
        hst' | ⟨b', batch, hb', hflight, hbody⟩ | hd
      · have hle := hst'.sequence_le hn
        omega
      · obtain rfl : b = b' := Option.some.inj (hb.symm.trans hb')
        have hown := ((hn.workers r (List.mem_of_getElem? hr)).1.kept b hb).inFlight hflight
        refine Or.inr ⟨batch, hflight, ?_, hbody ▸ hself⟩
        change db.task.checkpointSequence = _
        rw [hseq, ← hbody, hown]
      · exact absurd hd (hnotdead body)
    · change j + 1 = w.workers.length at hlast'
      obtain ⟨q₀, hq₀, hm₀, _⟩ := storeBatch_mem hq i body db outcome hq'
      rcases hoffers hlast' q₀ hq₀ body' (hm₀ ▸ hm') with hst' | hflight | hd
      · exact Or.inl (hmono j body' hst')
      · exact Or.inr (Or.inl hflight)
      · exact absurd hd (hnotdead body')
  · obtain ⟨q₀, hq₀, hm₀, _⟩ := storeBatch_mem hq i body db outcome hq'
    exact hl.senders q₀ hq₀ j body' (hm₀ ▸ hm')
  · obtain ⟨q₀, hq₀, hm₀, hans⟩ := storeBatch_mem hq i body db outcome hq'
    rcases hans n hstage with hkept | ⟨rfl, rfl⟩
    · rcases hl.answers q₀ hq₀ j body' n (hm₀ ▸ hm') hkept with ⟨hst', hle⟩ | ⟨_, hd⟩
      · exact Or.inl ⟨hmono j body' hst', hle⟩
      · exact absurd hd (hnotdead body')
    · rw [hm₀, hm] at hm'
      obtain ⟨rfl, rfl⟩ := Message.progress.inj hm'
      exact Or.inl ⟨hself, le_rfl⟩

theorem fromHolder_commit {k : ℕ} {outcome : IngestOutcome} (hg : w.fromHolder (.commit k outcome))
    {q : Request κ χ ρ} (hq : w.requests[k]? = some q) {i : ℕ} {body : ProgressSubmission κ χ}
    (hm : q.message = .progress i body) {row : ScanTask χ ρ} {overtaken : Bool}
    (hstage : q.stage = .checked row overtaken) (hengine : w.db.task.engineId = some q.engine) :
    i + 1 = w.workers.length := by
  obtain ⟨engine, message, stage⟩ := q
  cases hm
  cases hstage
  simp only [fromHolder, hq] at hg
  exact of_decide_eq_true hg hengine

variable [DecidableEq χ]

theorem Linked.step (hn : w.Numbered) (hl : w.Linked) {a : WireAction κ β χ ρ}
    (hg : w.fromHolder a) {w' : Wire κ β χ ρ} (h : w.step a = some w') : w'.Linked := by
  cases a with
  | lease g now =>
      obtain ⟨⟨db, lease⟩, hlease, rfl⟩ := Option.map_eq_some_iff.1 h
      obtain ⟨_, hk, hseq⟩ := keeps_leaseTask hlease
      obtain ⟨_, hdb, _⟩ := leaseTask_eq_some hlease
      have hrows := hl.rewrite hk (by
        intro hq
        rw [hdb, (leasedDb_task _).2.2.1] at hq
        cases hq)
      refine hrows.addWorker ⟨rfl, rfl⟩ fun b hb => ?_
      unfold Fetch.start at hb
      dsimp only at hb
      split_ifs at hb
      obtain rfl := Option.some.inj hb
      exact hk.sequence.trans hseq.symm
  | failLease engine failure =>
      obtain ⟨db, hfail, rfl⟩ := Option.map_eq_some_iff.1 h
      refine hl.rewrite (keeps_failLease hfail).2 fun hq => ?_
      obtain ⟨claimed, _, rfl⟩ := Option.map_eq_some_iff.1 hfail
      cases hq
  | worker i a =>
      obtain ⟨r', hstep, rfl⟩ := Option.map_eq_some_iff.1 h
      obtain ⟨r, hr, hstep⟩ := Option.bind_eq_some_iff.1 hstep
      exact hl.setWorker ((hl.workers i r hr).step hstep)
  | transmit i =>
      obtain ⟨r, message, hr, hmessage, rfl⟩ := step_transmit h
      unfold Worker.message at hmessage
      split at hmessage
      · obtain ⟨batch, hbatch, rfl⟩ := Option.map_eq_some_iff.1 hmessage
        obtain ⟨b, hb, hflight⟩ := Option.bind_eq_some_iff.1 hbatch
        have hadded := hl.addBatch hr hb hflight r.lease.engine
        exact hadded.setWorker ((hadded.workers i r hr).calling List.getElem?_concat_length rfl
          hb hflight)
      · rename_i hact
        obtain rfl := Option.some.inj hmessage
        have hadded := hl.post r.lease.engine ‹_›
        have hcall : r.call w.requests.length = r := by
          unfold Worker.call
          rw [hact]
        rw [hcall]
        exact hadded.setWorker (hadded.workers i r hr)
      · cases hmessage
  | post engine body =>
      obtain rfl := Option.some.inj h
      exact hl.post engine body
  | check k =>
      obtain ⟨q, hq, -, rfl⟩ := step_check h
      refine hl.setRequest hq _ fun i body n _ hans => ?_
      unfold Request.check at hans
      dsimp only at hans
      split at hans <;> cases hans
  | commit k outcome =>
      obtain ⟨q, row, overtaken, hq, hstage, rfl⟩ := step_commit h
      have hmem := List.mem_of_getElem? hq
      rcases w.commit_cases k q row outcome with ⟨i, body, db, hm, hst, heq⟩ |
        ⟨body, db, hm, hst, heq⟩ | ⟨answer, heq, hans⟩
      · rw [heq]
        exact hl.storeBatch hn hq hm (fromHolder_commit hg hq hm hstage hst.engine) hst outcome
      · rw [heq]
        have hbased := ((hn.requests q hmem).checked row overtaken hstage).2
        rw [hm] at hbased
        have hend := hst.terminal hbased.2
        have hrows := hl.rewrite (hst.keeps hend) fun h => by
          rw [h] at hend
          cases hend
        have hset := hrows.setRequest hq (.answered (.ok 0)) fun i body' n hm' _ => by
          rw [hm] at hm'
          cases hm'
        exact hset.tally _ _ _ _
      · rw [heq]
        refine hl.setRequest hq _ fun i body n hm hok => ?_
        obtain ⟨_, hprogress⟩ := hans n (Stage.answered.inj hok)
        obtain ⟨rfl, hengine, hnext⟩ := hprogress i body hm
        exact hl.answered hn hmem hm (fromHolder_commit hg hq hm hstage hengine) hengine hnext
  | receive i rearmed =>
      obtain ⟨r, unit, k, q, answer, r', hr, hact, hq, hanswer, hreceive, rfl⟩ := step_receive h
      exact hl.setWorker (.receive hn hl hr hact hq hanswer hreceive)
  | renew =>
      obtain rfl := Option.some.inj h
      refine hl.rewrite (keeps_renewLease w.db) ?_
      unfold renewLease
      split_ifs
      · intro h
        cases h
      · exact hl.queued
  | reclaim =>
      obtain rfl := Option.some.inj h
      refine hl.rewrite (keeps_reclaimExpiredLease w.db) ?_
      unfold reclaimExpiredLease
      split_ifs
      · exact fun _ => rfl
      · exact hl.queued
  | cancel =>
      obtain rfl := Option.some.inj h
      refine hl.rewrite (keeps_cancelTask w.db) ?_
      unfold cancelTask
      split_ifs
      · exact hl.queued
      · intro h
        cases h
  | otherReport counts outcome version =>
      obtain rfl := Option.some.inj h
      have hrows : Linked ({ w with db := { w.db with
          scan := recordRulepack (mergeScanCounts w.db.scan counts) version } } : Wire κ β χ ρ) :=
        hl.rewrite (.refl _) hl.queued
      exact hrows.tally _ _ _ _

end Steps

theorem Numbered.recorded {w : Wire κ β χ ρ} (hn : w.Numbered) {s : StoredBatch κ χ}
    (hs : s ∈ w.batches) : w.recorded s.body.sequence = some s := by
  have hnodup : (w.batches.map fun s => s.body.sequence).Nodup := by
    rw [hn.counted.numbered]
    exact List.nodup_range'
  have hsome : (w.recorded s.body.sequence).isSome :=
    List.find?_isSome.2 ⟨s, hs, decide_eq_true rfl⟩
  obtain ⟨s', hs'⟩ := Option.isSome_iff_exists.1 hsome
  have hseq : s'.body.sequence = s.body.sequence := by simpa using List.find?_some hs'
  rw [hs']
  exact congrArg some (List.inj_on_of_nodup_map hnodup (List.mem_of_find?_eq_some hs') hs hseq)

/-- In every run in which batches are decided for the attempt that holds the lease only. -/
theorem acknowledgements_identify_payloads [DecidableEq χ] {w : Wire κ β χ ρ}
    (h : Machine.Reachable step (fun w a => w.fromHolder a) Started w) : w.AcksIdentify := by
  have hn : w.Numbered := numbered_of_reachable h
  have hboth : w.Numbered ∧ w.Linked := by
    apply h.invariant
    · intro w hstart
      refine ⟨numbered_of_started hstart, ?_⟩
      obtain ⟨scan, id, kind, rfl⟩ := hstart
      exact ⟨fun _ => rfl, fun i r hr => (by cases hr), fun q hq => (by cases hq),
        fun q hq => (by cases hq)⟩
    · rintro w a w' ⟨hn, hl⟩ hg hstep
      exact ⟨hn.step hstep, hl.step hn hg hstep⟩
  refine ⟨fun i r hr body hbody => ?_, fun i r hr exit body hbody => ?_⟩
  · obtain ⟨s, hs, hsender, rfl⟩ := (hboth.2.workers i r hr).acknowledged body hbody
    exact ⟨s, hn.recorded hs, hsender, rfl⟩
  · exact (hn.workers r (List.mem_of_getElem? hr)).1.report hbody

/-! Two attempts under one identity. The first is still at work when the second is leased
the task, after its lease has lapsed. -/

def secondFlush : List (WireAction ℕ Unit ℕ Unit) :=
  [.reclaim, .lease sampleGrant 40, .worker 1 (.connector .scannedFor {}),
    .worker 1 (.connector (sampleUnit [5]) {}), .worker 1 (.connector (.checkpointAt 1) {}),
    .worker 1 (.connector .scannedFor {}),
    .worker 1 (.connector (sampleUnit [6]) { now := 71, rearmed := 71 })]

def lapsedAttempt : List (WireAction ℕ Unit ℕ Unit) :=
  firstFlush ++ [.transmit 0, .worker 0 (.giveUp 31)] ++ secondFlush ++
    [.transmit 1, .check 1, .commit 1 0, .receive 1 71]

theorem acknowledgement_identifies_the_second_batch : ∃ w : Wire ℕ Unit ℕ Unit,
    Machine.run step (fun w a => w.fromHolder a) (start {} 0 .fetch) lapsedAttempt = some w ∧
      (w.workers.map fun r => r.acknowledged.length) = [0, 1] ∧ w.AcksIdentify := by
  have hrun : (Machine.run step (fun w a => w.fromHolder a)
      (start {} 0 .fetch : Wire ℕ Unit ℕ Unit) lapsedAttempt).any fun w =>
        (w.workers.map fun r => r.acknowledged.length) = [0, 1] := by
    with_unfolding_all decide
  obtain ⟨w, hw, hobs⟩ := (Option.any_eq_true _ _).1 hrun
  exact ⟨w, hw, of_decide_eq_true hobs,
    acknowledgements_identify_payloads ((Machine.Reachable.start ⟨{}, 0, .fetch, rfl⟩).run hw)⟩

/-- The first attempt sends its batch again once the second one's is stored. -/
def zombieResends : List (WireAction ℕ Unit ℕ Unit) :=
  firstFlush ++ [.transmit 0] ++ secondFlush ++ [.transmit 1, .check 1, .commit 1 0, .receive 1 71,
    .transmit 0, .check 2, .commit 2 0, .receive 0 71, .worker 0 (.report .exhausted)]

theorem acknowledgement_can_be_of_another_batch : ∃ w : Wire ℕ Unit ℕ Unit,
    Machine.Reachable step (fun _ _ => True) Started w ∧
      (w.batches.map fun s => (s.sender, s.body.sequence, s.body.findings)) = [(1, 1, [5])] ∧
      (∃ r, w.workers[0]? = some r ∧
        (r.acknowledged.map fun body => (body.sequence, body.findings)) = [(1, [3])]) ∧
      ¬ w.AcksIdentify := by
  have hrun : (Machine.run step (fun _ _ => True)
      (start {} 0 .fetch : Wire ℕ Unit ℕ Unit) zombieResends).any fun w =>
        (w.batches.map fun s => (s.sender, s.body.sequence, s.body.findings)) = [(1, 1, [5])] ∧
        w.workers[0]?.any fun r =>
          (r.acknowledged.map fun body => (body.sequence, body.findings)) = [(1, [3])] := by
    with_unfolding_all decide
  have hstart : Machine.Reachable step (fun _ _ => True) Started
      (start {} 0 .fetch : Wire ℕ Unit ℕ Unit) := .start ⟨{}, 0, .fetch, rfl⟩
  obtain ⟨w, hw, hbatches, hworker⟩ := hstart.exists_of_run hrun
  obtain ⟨r, hr, hack⟩ := (Option.any_eq_true _ _).1 hworker
  have hack := of_decide_eq_true hack
  refine ⟨w, hw, hbatches, ⟨r, hr, hack⟩, fun hids => ?_⟩
  obtain ⟨body, hbody, hval⟩ := List.mem_map.1
    (hack ▸ List.mem_singleton_self (1, [3]) : (1, [3]) ∈ r.acknowledged.map _)
  obtain ⟨s, hs, hsender, _⟩ := hids.acknowledged 0 r hr body hbody
  have hmem : (s.sender, s.body.sequence, s.body.findings) ∈
      w.batches.map fun s => (s.sender, s.body.sequence, s.body.findings) :=
    List.mem_map_of_mem (List.mem_of_find?_eq_some hs)
  rw [hbatches, List.mem_singleton] at hmem
  have hone := congrArg Prod.fst hmem
  rw [hsender] at hone
  cases hone

end Wire

end IcebergSST
