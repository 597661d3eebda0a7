import IcebergSST.Escalation
import IcebergSST.Handoff
import IcebergSST.Library.RetryQueue

/-!
# Rounds of delivery

A round attempts the due rows of the outbox, a batch at most, and commits each. A row that
fails is due again later, and twice as late each time. The process may die behind a sending
and in front of its commit; the row is then as it was. Rows are enqueued by other
transactions, and go with the findings, channels and scans they refer to.
-/

namespace IcebergSST

open RetryQueue

inductive NotificationDeliveryStatus
  | pending
  | delivered
  | failed
  deriving DecidableEq, Repr

structure QueuedDelivery extends OutboxRow where
  id : ℕ
  status : NotificationDeliveryStatus := .pending
  attempts : ℕ := 0
  nextAttemptAt : ℤ
  deliveredAt : Option ℤ := none
  lastError : Option String := none
  deriving DecidableEq

/-- The settings as they are validated. -/
structure DispatchSettings extends DeliverySettings where
  batchSize : ℕ
  maxAttempts_pos : 1 ≤ maxAttempts
  backoffSeconds_pos : 1 ≤ backoffSeconds
  batchSize_pos : 1 ≤ batchSize

/-- What building the payload and sending it raises. -/
inductive Trouble
  | delivery (message : String) (permanent : Bool)
  | crash (className : String)
  deriving DecidableEq

/-- The constructor of the exception cuts its message. -/
def Trouble.error : Trouble → DeliveryError
  | .delivery message permanent => { text := truncated 400 message, permanent }
  | .crash className => { text := truncated 400 ("delivery error: " ++ className) }

/-- The other tables when a row is attempted, and the receivers. -/
structure DispatchWorld where
  channels : List NotificationChannel
  findings : List AnnouncedFinding
  scans : List ℕ
  sources : List ℕ
  send : QueuedDelivery → NotificationChannel → AnnouncedFinding → Option Trouble

inductive Readiness
  | unreferenced
  | disabled
  | ready (channel : NotificationChannel) (finding : AnnouncedFinding)

namespace QueuedDelivery

def readiness (w : DispatchWorld) (d : QueuedDelivery) : Readiness :=
  match w.channels.find? (·.id = d.channelId), w.findings.find? (·.id = d.findingId) with
  | some channel, some finding =>
      if finding.sourceId ∉ w.sources ∨
          (¬ d.scanId.any (· ∈ w.scans) ∧ d.kind ≠ .findingOverdue) then .unreferenced
      else if ¬ channel.enabled then .disabled
      else .ready channel finding
  | _, _ => .unreferenced

def fail (d : QueuedDelivery) (reason : String) (now : ℤ) : QueuedDelivery :=
  { d with status := .failed, lastError := some reason, nextAttemptAt := now }

def retryOrFail (d : QueuedDelivery) (error : DeliveryError) (settings : DispatchSettings)
    (now : ℤ) : QueuedDelivery :=
  if error.permanent ∨ settings.maxAttempts ≤ d.attempts then d.fail error.text now
  else
    { d with
      nextAttemptAt := now + settings.backoffSeconds * 2 ^ (d.attempts - 1)
      lastError := some error.text }

def attempt (settings : DispatchSettings) (w : DispatchWorld) (now : ℤ) (d : QueuedDelivery) :
    QueuedDelivery :=
  let d := { d with attempts := d.attempts + 1 }
  match d.readiness w with
  | .unreferenced => d.fail "referenced row no longer exists" now
  | .disabled => d.fail "channel disabled before delivery" now
  | .ready channel finding =>
      match w.send d channel finding with
      | some trouble => d.retryOrFail trouble.error settings now
      | none => { d with status := .delivered, deliveredAt := some now, lastError := none }

def call (w : DispatchWorld) (d : QueuedDelivery) : Option Bool :=
  let d := { d with attempts := d.attempts + 1 }
  match d.readiness w with
  | .ready channel finding => some (w.send d channel finding).isNone
  | _ => none

end QueuedDelivery

theorem Trouble.error_length (t : Trouble) : t.error.text.length ≤ 400 := by
  have htruncated : ∀ text, (truncated 400 text).length ≤ 400 := by
    intro text
    simp only [truncated, String.length_ofList, List.length_take]
    exact min_le_left _ _
  cases t <;> exact htruncated _

namespace QueuedDelivery

/-- A text that the column of the error can hold. -/
def Explained (d : QueuedDelivery) : Prop := ∃ text ∈ d.lastError, text.length ≤ 400

/-- Everything an attempt can leave of a row. -/
theorem attempt_cases (settings : DispatchSettings) (w : DispatchWorld) (now : ℤ)
    (d : QueuedDelivery) :
    let d' := d.attempt settings w now
    (d'.id = d.id ∧ d'.attempts = d.attempts + 1) ∧
      ((d'.status = .delivered ∧ d.call w = some true ∧ d'.lastError = none) ∨
        (d'.status = .failed ∧ d.call w ≠ some true ∧ d'.Explained) ∨
        (d'.status = d.status ∧ d.call w = some false ∧ now < d'.nextAttemptAt ∧
          d'.attempts < settings.maxAttempts ∧ d'.Explained)) := by
  unfold attempt call
  dsimp only
  cases hready : ({ d with attempts := d.attempts + 1 } : QueuedDelivery).readiness w with
  | unreferenced => exact ⟨⟨rfl, rfl⟩, .inr (.inl ⟨rfl, nofun, _, rfl, by decide⟩)⟩
  | disabled => exact ⟨⟨rfl, rfl⟩, .inr (.inl ⟨rfl, nofun, _, rfl, by decide⟩)⟩
  | ready channel finding =>
      dsimp only
      cases hsend : w.send { d with attempts := d.attempts + 1 } channel finding with
      | none => exact ⟨⟨rfl, rfl⟩, .inl ⟨rfl, rfl, rfl⟩⟩
      | some trouble =>
          dsimp only
          unfold retryOrFail
          split_ifs with hlast
          · exact ⟨⟨rfl, rfl⟩, .inr (.inl ⟨rfl, nofun, _, rfl, trouble.error_length⟩)⟩
          · have hpos := settings.backoffSeconds_pos
            have hdelay : (0 : ℤ) <
                settings.backoffSeconds * 2 ^ (d.attempts + 1 - 1) := by positivity
            refine ⟨⟨rfl, rfl⟩, .inr (.inr ⟨rfl, rfl, ?_, ?_, _, rfl, trouble.error_length⟩)⟩
            · change now < now + (settings.backoffSeconds : ℤ) * 2 ^ (d.attempts + 1 - 1)
              omega
            · exact not_le.1 fun h => hlast (.inr h)

end QueuedDelivery

/-- The outbox as a queue of its pending rows. -/
def dispatchLadder (settings : DispatchSettings) :
    Ladder QueuedDelivery ℕ DispatchWorld settings.maxAttempts where
  id := QueuedDelivery.id
  pending d := d.status = .pending
  due := QueuedDelivery.nextAttemptAt
  attempts := QueuedDelivery.attempts
  attempt w now d := d.attempt settings w now
  id_attempt w now d := (d.attempt_cases settings w now).1.1
  retried w now d h := by
    obtain ⟨⟨-, hattempts⟩, hcases⟩ := d.attempt_cases settings w now
    rcases hcases with ⟨hstatus, -⟩ | ⟨hstatus, -⟩ | ⟨-, -, hdue, hlt, -⟩
    · simp [hstatus] at h
    · simp [hstatus] at h
    · exact ⟨hdue, hattempts, hlt⟩

/-- The outbox with what became of it: every call of a receiver, by the row and whether it
accepted, and the rows at which a round was cut off. -/
structure DispatchLife where
  rows : List QueuedDelivery := []
  calls : List (ℕ × Bool) := []
  cuts : List ℕ := []

/-- In a round, `w` is what each attempt finds: the transaction of the one before is
committed by then. `scan` is the table in the order the database comes across it, and
`committed` is how many rows of the page are committed; if that is not all of them, the
process died at the next one, having called its receiver or not. -/
inductive DispatchAction
  | enqueue (row : OutboxRow) (id : ℕ) (now : ℤ)
  | cascade (gone : QueuedDelivery → Bool)
  | round (w : QueuedDelivery → DispatchWorld) (now : ℤ) (scan : List QueuedDelivery)
      (committed : ℕ) (called : Bool)

def duePage (settings : DispatchSettings) (now : ℤ) (scan : List QueuedDelivery) :
    List QueuedDelivery :=
  (dispatchLadder settings).page settings.batchSize now scan

abbrev committedRows (settings : DispatchSettings) (now : ℤ) (scan : List QueuedDelivery)
    (committed : ℕ) : List QueuedDelivery :=
  (duePage settings now scan).take committed

abbrev diedAt (settings : DispatchSettings) (now : ℤ) (scan : List QueuedDelivery)
    (committed : ℕ) : List QueuedDelivery :=
  ((duePage settings now scan).drop committed).take 1

def callsOf (w : QueuedDelivery → DispatchWorld) (page : List QueuedDelivery) :
    List (ℕ × Bool) :=
  page.filterMap fun d => (d.call (w d)).map fun accepted => (d.id, accepted)

namespace DispatchLife
variable (settings : DispatchSettings) (s : DispatchLife)

def deliver (w : QueuedDelivery → DispatchWorld) (now : ℤ) (scan : List QueuedDelivery)
    (committed : ℕ) (called : Bool) : DispatchLife :=
  let served := committedRows settings now scan committed
  let died := diedAt settings now scan committed
  { rows := (dispatchLadder settings).serve w now s.rows served
    calls := s.calls ++ callsOf w served ++ if called then callsOf w died else []
    cuts := s.cuts ++ died.map QueuedDelivery.id }

def Fresh (id : ℕ) : Prop :=
  id ∉ s.rows.map QueuedDelivery.id ∧ id ∉ s.calls.map Prod.fst ∧ id ∉ s.cuts

instance (id : ℕ) : Decidable (s.Fresh id) := inferInstanceAs (Decidable (_ ∧ _ ∧ _))

def step (s : DispatchLife) : DispatchAction → Option DispatchLife
  | .enqueue row id now =>
      if s.Fresh id then
        some { s with rows := s.rows ++ [{ toOutboxRow := row, id, nextAttemptAt := now }] }
      else none
  | .cascade gone => some { s with rows := s.rows.filter fun d => !gone d }
  | .round w now scan committed called =>
      if scan.Perm s.rows then some (s.deliver settings w now scan committed called) else none

def callCount (id : ℕ) : ℕ := (s.calls.map Prod.fst).count id

def acceptedCount (id : ℕ) : ℕ := s.calls.count (id, true)

def cutCount (id : ℕ) : ℕ := s.cuts.count id

/-- What is true of a row, whatever happened to the outbox. -/
structure Accounted (d : QueuedDelivery) : Prop where
  attempts : d.attempts ≤ settings.maxAttempts
  another : d.status = .pending → d.attempts < settings.maxAttempts
  calls : s.callCount d.id ≤ d.attempts + s.cutCount d.id
  /-- The receiver has it twice only if a round was cut off at it. -/
  accepted : s.acceptedCount d.id ≤ (if d.status = .delivered then 1 else 0) + s.cutCount d.id
  delivered : d.status = .delivered → (d.id, true) ∈ s.calls ∧ d.lastError = none
  failed : d.status = .failed → d.Explained
  explained : d.lastError ≠ none → d.Explained

structure Sound : Prop where
  keyed : (s.rows.map QueuedDelivery.id).Nodup
  rows : ∀ d ∈ s.rows, s.Accounted settings d

variable {settings} {s s' : DispatchLife}
  {w : QueuedDelivery → DispatchWorld} {now : ℤ}
  {scan : List QueuedDelivery} {committed : ℕ} {called : Bool} {d : QueuedDelivery}

theorem callsOf_sublist (w : QueuedDelivery → DispatchWorld) (page : List QueuedDelivery) :
    ((callsOf w page).map Prod.fst).Sublist (page.map QueuedDelivery.id) := by
  induction page with
  | nil => exact .slnil
  | cons d page ih =>
      cases hcall : d.call (w d) with
      | none =>
          have hcons : callsOf w (d :: page) = callsOf w page := by simp [callsOf, hcall]
          rw [hcons]
          exact ih.cons _
      | some accepted =>
          have hcons : callsOf w (d :: page) = (d.id, accepted) :: callsOf w page := by
            simp [callsOf, hcall]
          rw [hcons]
          exact ih.cons_cons _

theorem count_accepted_le (w : QueuedDelivery → DispatchWorld) (page : List QueuedDelivery)
    (id : ℕ) : (callsOf w page).count (id, true) ≤ (page.map QueuedDelivery.id).count id := by
  have hfst : (callsOf w page).count (id, true) ≤ ((callsOf w page).map Prod.fst).count id :=
    List.count_le_count_map (f := Prod.fst)
  exact hfst.trans ((callsOf_sublist w page).count_le id)

theorem nodup_served (hkeyed : (s.rows.map QueuedDelivery.id).Nodup) (hscan : scan.Perm s.rows)
    (committed : ℕ) :
    ((committedRows settings now scan committed).map QueuedDelivery.id).Nodup := by
  have hks : (dispatchLadder settings).Keyed scan :=
    ((hscan.map QueuedDelivery.id).nodup_iff).2 hkeyed
  exact List.Nodup.sublist ((List.take_sublist _ _).map _) (Ladder.keyed_page hks _ _)

/-- The rows after a round: those of the page that were committed were attempted. -/
theorem mem_deliver (hkeyed : (s.rows.map QueuedDelivery.id).Nodup) (hscan : scan.Perm s.rows)
    {d' : QueuedDelivery} (hd' : d' ∈ (s.deliver settings w now scan committed called).rows) :
    ∃ d ∈ s.rows, (d ∈ committedRows settings now scan committed ∧
        d' = d.attempt settings (w d) now ∧ d.status = .pending) ∨
      (d.id ∉ (committedRows settings now scan committed).map QueuedDelivery.id ∧ d' = d) := by
  have hk : (dispatchLadder settings).Keyed s.rows := hkeyed
  have hpage : (dispatchLadder settings).Keyed (committedRows settings now scan committed) :=
    nodup_served hkeyed hscan committed
  have hmem : ∀ r ∈ committedRows settings now scan committed, r ∈ s.rows ∧
      r.status = .pending := by
    intro r hr
    obtain ⟨hr, hpending, -⟩ := Ladder.mem_page (List.mem_of_mem_take hr)
    exact ⟨hscan.mem_iff.1 hr, of_decide_eq_true hpending⟩
  unfold deliver at hd'
  dsimp only at hd'
  rw [Ladder.serve_eq hk hpage fun r hr => (hmem r hr).1] at hd'
  obtain ⟨d, hd, rfl⟩ := List.mem_map.1 hd'
  refine ⟨d, hd, ?_⟩
  by_cases hserved : d.id ∈ (committedRows settings now scan committed).map QueuedDelivery.id
  · left
    obtain ⟨r, hr, heq⟩ := List.mem_map.1 hserved
    obtain rfl := Ladder.eq_of_id hk (hmem r hr).1 hd heq
    exact ⟨hr, if_pos hserved, (hmem r hr).2⟩
  · exact .inr ⟨hserved, if_neg hserved⟩

theorem callCount_deliver (settings : DispatchSettings) (s : DispatchLife)
    (w : QueuedDelivery → DispatchWorld) (now : ℤ) (scan : List QueuedDelivery) (committed : ℕ)
    (called : Bool) (id : ℕ) :
    (s.deliver settings w now scan committed called).callCount id ≤
      s.callCount id +
        ((committedRows settings now scan committed).map QueuedDelivery.id).count id +
        ((diedAt settings now scan committed).map QueuedDelivery.id).count id := by
  unfold callCount deliver
  dsimp only
  rw [List.map_append, List.map_append, List.count_append, List.count_append]
  have hserved := (callsOf_sublist w (committedRows settings now scan committed)).count_le id
  have hdied : (((if called then callsOf w (diedAt settings now scan committed)
      else []).map Prod.fst).count id) ≤
        ((diedAt settings now scan committed).map QueuedDelivery.id).count id := by
    cases called
    · exact Nat.zero_le _
    · exact (callsOf_sublist w _).count_le id
  omega

theorem acceptedCount_deliver (settings : DispatchSettings) (s : DispatchLife)
    (w : QueuedDelivery → DispatchWorld) (now : ℤ) (scan : List QueuedDelivery) (committed : ℕ)
    (called : Bool) (id : ℕ) :
    (s.deliver settings w now scan committed called).acceptedCount id ≤
      s.acceptedCount id +
        (callsOf w (committedRows settings now scan committed)).count (id, true) +
        ((diedAt settings now scan committed).map QueuedDelivery.id).count id := by
  unfold acceptedCount deliver
  dsimp only
  rw [List.count_append, List.count_append]
  have hdied : (if called then callsOf w (diedAt settings now scan committed)
      else []).count (id, true) ≤
        ((diedAt settings now scan committed).map QueuedDelivery.id).count id := by
    cases called
    · exact Nat.zero_le _
    · exact count_accepted_le w _ id
  omega

/-- In a page the receiver accepts a row at most once, and only if it says so. -/
theorem count_callsOf_le {page : List QueuedDelivery}
    (hpage : (page.map QueuedDelivery.id).Nodup) (hd : d ∈ page) :
    (callsOf w page).count (d.id, true) ≤ if d.call (w d) = some true then 1 else 0 := by
  split_ifs with hcall
  · exact (count_accepted_le w page d.id).trans (List.nodup_iff_count_le_one.1 hpage d.id)
  · refine (List.count_eq_zero_of_not_mem fun hmem => hcall ?_).le
    obtain ⟨d', hd', heq⟩ := List.mem_filterMap.1 hmem
    obtain ⟨accepted, hcall', hpair⟩ := Option.map_eq_some_iff.1 heq
    obtain ⟨hid, rfl⟩ := Prod.mk.inj hpair
    obtain rfl := List.inj_on_of_nodup_map hpage hd' hd hid
    exact hcall'

theorem keyed_deliver (hkeyed : (s.rows.map QueuedDelivery.id).Nodup) :
    ((s.deliver settings w now scan committed called).rows.map QueuedDelivery.id).Nodup :=
  Ladder.keyed_serve (show (dispatchLadder settings).Keyed s.rows from hkeyed) _ _ _

theorem Sound.deliver (h : s.Sound settings) (hscan : scan.Perm s.rows) :
    (s.deliver settings w now scan committed called).Sound settings := by
  refine ⟨keyed_deliver h.keyed, fun d' hd' => ?_⟩
  obtain ⟨d, hd, hcases⟩ := mem_deliver h.keyed hscan hd'
  have hrow := h.rows d hd
  have hcount := callCount_deliver settings s w now scan committed called d.id
  have hcut : (s.deliver settings w now scan committed called).cutCount d.id =
      s.cutCount d.id +
        ((diedAt settings now scan committed).map QueuedDelivery.id).count d.id :=
    List.count_append
  have haccepted := acceptedCount_deliver settings s w now scan committed called d.id
  have hold : ∀ call ∈ s.calls,
      call ∈ (s.deliver settings w now scan committed called).calls := fun call hcall =>
    List.mem_append_left _ (List.mem_append_left _ hcall)
  rcases hcases with ⟨hserved, rfl, hpending⟩ | ⟨hserved, rfl⟩
  · have hnodup : ((committedRows settings now scan committed).map QueuedDelivery.id).Nodup :=
      nodup_served h.keyed hscan committed
    have hone := List.nodup_iff_count_le_one.1 hnodup d.id
    have hcalls := hrow.calls
    have hanother := hrow.another hpending
    obtain ⟨⟨hid, hattempts⟩, hcases⟩ := d.attempt_cases settings (w d) now
    have hcounted : (s.deliver settings w now scan committed called).callCount
          (d.attempt settings (w d) now).id ≤ (d.attempt settings (w d) now).attempts +
        (s.deliver settings w now scan committed called).cutCount
          (d.attempt settings (w d) now).id := by
      rw [hid, hattempts]
      omega
    have hle : (d.attempt settings (w d) now).attempts ≤ settings.maxAttempts := by omega
    have honce := count_callsOf_le (w := w) hnodup hserved
    have hbefore := hrow.accepted
    rw [if_neg (by rw [hpending]; nofun)] at hbefore
    rcases hcases with ⟨hstatus, hcall, hnone⟩ | ⟨hstatus, hcall, hexplained⟩ |
      ⟨hstatus, hcall, -, hlt, hexplained⟩
    · rw [if_pos hcall] at honce
      refine ⟨hle, ?_, hcounted, ?_, fun _ => ⟨?_, hnone⟩, ?_, fun hne => absurd hnone hne⟩
      · exact fun hp => by rw [hstatus] at hp; cases hp
      · rw [if_pos hstatus, hid]
        omega
      · rw [hid]
        refine List.mem_append_left _ (List.mem_append_right _ ?_)
        exact List.mem_filterMap.2 ⟨d, hserved, by rw [hcall]; rfl⟩
      · exact fun hf => by rw [hstatus] at hf; cases hf
    · rw [if_neg hcall] at honce
      refine ⟨hle, ?_, hcounted, ?_, ?_, fun _ => hexplained, fun _ => hexplained⟩
      · exact fun hp => by rw [hstatus] at hp; cases hp
      · rw [hid]
        omega
      · exact fun hd => by rw [hstatus] at hd; cases hd
    · rw [if_neg (by rw [hcall]; nofun)] at honce
      refine ⟨hle, fun _ => hlt, hcounted, ?_, ?_, fun _ => hexplained, fun _ => hexplained⟩
      · rw [hid]
        omega
      · exact fun hd => by rw [hstatus, hpending] at hd; cases hd
  · rw [List.count_eq_zero_of_not_mem hserved] at hcount
    have hnone := count_accepted_le w (committedRows settings now scan committed) d'.id
    rw [List.count_eq_zero_of_not_mem hserved] at hnone
    refine ⟨hrow.attempts, hrow.another, ?_, ?_, fun hstatus => ?_, hrow.failed, hrow.explained⟩
    · have := hrow.calls
      omega
    · have := hrow.accepted
      omega
    · exact ⟨hold _ (hrow.delivered hstatus).1, (hrow.delivered hstatus).2⟩

theorem Accounted.mono (h : s.Accounted settings d) (hcalls : s'.calls = s.calls)
    (hcuts : s'.cuts = s.cuts) : s'.Accounted settings d := by
  refine ⟨h.attempts, h.another, ?_, ?_, ?_, h.failed, h.explained⟩
  · unfold callCount cutCount
    rw [hcalls, hcuts]
    exact h.calls
  · unfold acceptedCount cutCount
    rw [hcalls, hcuts]
    exact h.accepted
  · rw [hcalls]
    exact h.delivered

theorem Sound.step {a : DispatchAction} (h : s.Sound settings)
    (hstep : s.step settings a = some s') : s'.Sound settings := by
  cases a with
  | enqueue row id now =>
      simp only [DispatchLife.step] at hstep
      split_ifs at hstep with hfresh
      cases hstep
      obtain ⟨hrows, hcalls, hcuts⟩ := hfresh
      refine ⟨?_, fun d hd => ?_⟩
      · rw [List.map_append, List.nodup_append']
        exact ⟨h.keyed, List.nodup_singleton _, List.disjoint_singleton.2 hrows⟩
      · rcases List.mem_append.1 hd with hd | hd
        · exact (h.rows d hd).mono rfl rfl
        · rw [List.mem_singleton.1 hd]
          have hpair : (id, true) ∉ s.calls := fun hmem => hcalls (List.mem_map_of_mem hmem)
          refine ⟨Nat.zero_le _, fun _ => settings.maxAttempts_pos, ?_, ?_, nofun, nofun,
            fun hne => absurd rfl hne⟩
          · simp [callCount, List.count_eq_zero_of_not_mem hcalls]
          · simp [acceptedCount, List.count_eq_zero_of_not_mem hpair]
  | cascade gone =>
      cases hstep
      refine ⟨List.Nodup.sublist (List.filter_sublist.map _) h.keyed, fun d hd => ?_⟩
      exact (h.rows d (List.mem_filter.1 hd).1).mono rfl rfl
  | round w now scan committed called =>
      simp only [DispatchLife.step] at hstep
      split_ifs at hstep with hscan
      cases hstep
      exact h.deliver hscan

theorem settled_step {a : DispatchAction} (h : s.Sound settings)
    (hstep : s.step settings a = some s') (hd : d ∈ s.rows) (hsettled : d.status ≠ .pending) :
    (∀ d' ∈ s'.rows, d'.id = d.id → d' = d) ∧ s'.callCount d.id = s.callCount d.id := by
  have hsame : ∀ d' ∈ s.rows, d'.id = d.id → d' = d := fun d' hd' hid =>
    List.inj_on_of_nodup_map h.keyed hd' hd hid
  cases a with
  | enqueue row id now =>
      simp only [DispatchLife.step] at hstep
      split_ifs at hstep with hfresh
      cases hstep
      refine ⟨fun d' hd' hid => ?_, rfl⟩
      rcases List.mem_append.1 hd' with hd' | hd'
      · exact hsame d' hd' hid
      · rw [List.mem_singleton.1 hd'] at hid
        exact absurd (List.mem_map.2 ⟨d, hd, hid.symm⟩) hfresh.1
  | cascade gone =>
      cases hstep
      exact ⟨fun d' hd' => hsame d' (List.mem_filter.1 hd').1, rfl⟩
  | round w now scan committed called =>
      simp only [DispatchLife.step] at hstep
      split_ifs at hstep with hscan
      cases hstep
      have hpage : ∀ n, d.id ∉ (committedRows settings now scan n).map QueuedDelivery.id ∧
          d.id ∉ (diedAt settings now scan n).map QueuedDelivery.id := by
        have hmem : d.id ∉ (duePage settings now scan).map QueuedDelivery.id := by
          rintro hmem
          obtain ⟨r, hr, hid⟩ := List.mem_map.1 hmem
          obtain ⟨hr, hpending, -⟩ := Ladder.mem_page hr
          obtain rfl := hsame r (hscan.mem_iff.1 hr) hid
          exact hsettled (of_decide_eq_true hpending)
        exact fun n => ⟨fun hn => hmem (((List.take_sublist _ _).map _).subset hn), fun hn =>
          hmem ((((List.take_sublist _ _).trans (List.drop_sublist _ _)).map _).subset hn)⟩
      refine ⟨fun d' hd' hid => ?_, le_antisymm ?_ ?_⟩
      · obtain ⟨r, hr, hcases⟩ := mem_deliver h.keyed hscan hd'
        rcases hcases with ⟨hserved, rfl, -⟩ | ⟨-, rfl⟩
        · rw [(r.attempt_cases settings (w r) now).1.1] at hid
          exact absurd (List.mem_map.2 ⟨r, hserved, hid⟩) (hpage committed).1
        · exact hsame d' hr hid
      · have hcount := callCount_deliver settings s w now scan committed called d.id
        rw [List.count_eq_zero_of_not_mem (hpage committed).1,
          List.count_eq_zero_of_not_mem (hpage committed).2] at hcount
        exact hcount
      · unfold callCount DispatchLife.deliver
        dsimp only
        rw [List.map_append, List.map_append, List.count_append, List.count_append]
        omega

/-- The outbox after whatever happened to it since it was empty. -/
def Reached (settings : DispatchSettings) (s : DispatchLife) : Prop :=
  Machine.Reachable (DispatchLife.step settings) (fun _ _ => True) (· = {}) s

theorem Reached.sound (h : Reached settings s) : s.Sound settings := by
  refine Machine.Reachable.invariant ?_ (fun s a s' hs _ hstep => hs.step hstep) h
  rintro s rfl
  exact ⟨List.nodup_nil, by simp⟩

/-- Every row of the outbox has the attempts it was called for, and a row that was settled
stays as it is and is not sent again. -/
theorem deliveries_accounted (h : Reached settings s) :
    (∀ d ∈ s.rows, s.Accounted settings d) ∧
      ∀ a s', s.step settings a = some s' → ∀ d ∈ s.rows, d.status ≠ .pending →
        (∀ d' ∈ s'.rows, d'.id = d.id → d' = d) ∧ s'.callCount d.id = s.callCount d.id :=
  ⟨h.sound.rows, fun _ _ hstep _ hd => settled_step h.sound hstep hd⟩

def twice : DispatchSettings where
  maxAttempts := 2
  backoffSeconds := 60
  batchSize := 1
  maxAttempts_pos := by omega
  backoffSeconds_pos := by omega
  batchSize_pos := by omega

def announced (answer : Option Trouble) : DispatchWorld where
  channels := [{ id := 1 }]
  findings := [{ id := 1, sourceId := 1, severity := .high, firstSeenScanId := 1,
                 lastSeenScanId := 1 }]
  scans := [1]
  sources := [1]
  send _ _ _ := answer

def queued : QueuedDelivery :=
  { channelId := 1, findingId := 1, scanId := some 1, id := 7, nextAttemptAt := 0 }

/-- Refused at first and accepted later, but the process died before it could say so. -/
def sentTwice : DispatchLife where
  rows := [{ queued with status := .delivered, attempts := 2, nextAttemptAt := 60
                         deliveredAt := some 70 }]
  calls := [(7, false), (7, true), (7, true)]
  cuts := [7]

theorem duePage_single (hpending : d.status = .pending) (hdue : d.nextAttemptAt ≤ now) :
    duePage settings now [d] = [d] := by
  have hisDue : (dispatchLadder settings).isDue now d = true := by
    simp [Ladder.isDue, dispatchLadder, hpending, hdue]
  have htake : [d].take settings.batchSize = [d] :=
    List.take_of_length_le settings.batchSize_pos
  simp only [duePage, Ladder.page, List.filter_cons_of_pos hisDue, List.filter_nil,
    List.mergeSort_singleton, htake]

theorem step_single (hpending : d.status = .pending) (hdue : d.nextAttemptAt ≤ now)
    (w : QueuedDelivery → DispatchWorld) (calls : List (ℕ × Bool)) (cuts : List ℕ) :
    step settings { rows := [d], calls, cuts } (.round w now [d] 1 false) =
      some { rows := [d.attempt settings (w d) now], calls := calls ++ callsOf w [d], cuts } := by
  have hid := (d.attempt_cases settings (w d) now).1.1
  simp [step, deliver, committedRows, diedAt, duePage_single hpending hdue,
    Ladder.serve, Ladder.put, dispatchLadder, hid]

theorem queued_reached : Reached twice { rows := [queued] } := by
  have hempty : Reached twice {} := .start rfl
  exact hempty.step (a := .enqueue queued.toOutboxRow 7 0) trivial rfl

theorem sentTwice_reached : Reached twice sentTwice := by
  let busy := announced (some (.delivery "HTTP 503" false))
  let refused := queued.attempt twice busy 0
  have hrefused : Reached twice { rows := [refused], calls := [(7, false)] } :=
    queued_reached.step (a := .round (fun _ => busy) 0 [queued] 1 false) trivial
      (step_single rfl (le_refl _) _ _ _)
  have hdied : Reached twice
      { rows := [refused], calls := [(7, false), (7, true)], cuts := [7] } := by
    refine hrefused.step (a := .round (fun _ => announced none) 60 [refused] 0 true) trivial ?_
    have hpage : duePage twice 60 [refused] = [refused] := duePage_single rfl (le_refl _)
    simp only [step, List.Perm.refl, if_true, deliver, committedRows, diedAt, hpage]
    rfl
  exact hdied.step (a := .round (fun _ => announced none) 70 [refused] 1 false) trivial
    (step_single rfl (by decide) _ _ _)

theorem sentTwice_accounted :
    (∀ d ∈ sentTwice.rows, sentTwice.Accounted twice d) ∧
      ∀ a s', sentTwice.step twice a = some s' → ∀ d ∈ sentTwice.rows, d.status ≠ .pending →
        (∀ d' ∈ s'.rows, d'.id = d.id → d' = d) ∧
          s'.callCount d.id = sentTwice.callCount d.id :=
  deliveries_accounted sentTwice_reached

end DispatchLife

/-- An outbox for all time. -/
structure DispatchRun (settings : DispatchSettings) where
  life : ℕ → DispatchLife
  action : ℕ → DispatchAction
  reached : DispatchLife.Reached settings (life 0)
  step : ∀ k, (life k).step settings (action k) = some (life (k + 1))

namespace DispatchRun
variable {settings : DispatchSettings} (run : DispatchRun settings)

/-- Rounds that are not cut off never cease, and only so many rows are enqueued before any
given time. -/
structure Fair : Prop where
  rounds : ∀ K T, ∃ k ≥ K, ∃ w now scan committed called,
    run.action k = .round w now scan committed called ∧
      (duePage settings now scan).length ≤ committed ∧ T ≤ now
  arrivals : ∀ T, ∃ K, ∀ k ≥ K, ∀ row id now, run.action k = .enqueue row id now → T < now

variable {run}

theorem reached_life (k : ℕ) : DispatchLife.Reached settings (run.life k) := by
  induction k with
  | zero => exact run.reached
  | succ k ih => exact ih.step trivial (run.step k)

def beat : DispatchAction → RetryQueue.Beat QueuedDelivery DispatchWorld
  | .round w now scan committed _ => .round now scan w committed
  | _ => .other

theorem takes {s s' : DispatchLife} (h : s.Sound settings) {a : DispatchAction}
    (hstep : s.step settings a = some s') :
    (dispatchLadder settings).Takes settings.batchSize (beat a) s.rows s'.rows := by
  have hkept : ∀ d ∈ s.rows, ∀ d' ∈ s.rows, d'.id = d.id →
      d'.nextAttemptAt = d.nextAttemptAt ∧ d'.attempts = d.attempts := by
    intro d hd d' hd' hid
    obtain rfl := List.inj_on_of_nodup_map h.keyed hd' hd hid
    exact ⟨rfl, rfl⟩
  have hs' := h.step hstep
  cases a with
  | enqueue row id now =>
      refine ⟨hs'.keyed, fun d hd _ d' hd' _ hid => ?_⟩
      simp only [DispatchLife.step] at hstep
      split_ifs at hstep with hfresh
      cases hstep
      rcases List.mem_append.1 hd' with hd' | hd'
      · exact hkept d hd d' hd' hid
      · rw [List.mem_singleton.1 hd'] at hid
        exact absurd (List.mem_map.2 ⟨d, hd, hid.symm⟩) hfresh.1
  | cascade gone =>
      refine ⟨hs'.keyed, fun d hd _ d' hd' _ hid => ?_⟩
      cases hstep
      exact hkept d hd d' (List.mem_filter.1 hd').1 hid
  | round w now scan committed called =>
      simp only [DispatchLife.step] at hstep
      split_ifs at hstep with hscan
      cases hstep
      exact ⟨hscan, rfl⟩

theorem enqueued_of_new {s s' : DispatchLife} (h : s.Sound settings) {a : DispatchAction}
    (hstep : s.step settings a = some s') {d' : QueuedDelivery} (hd' : d' ∈ s'.rows)
    (hpending : d'.status = .pending)
    (hnew : ∀ d ∈ s.rows, d.status = .pending → d.id ≠ d'.id) :
    ∃ row id, a = .enqueue row id d'.nextAttemptAt := by
  cases a with
  | enqueue row id now =>
      simp only [DispatchLife.step] at hstep
      split_ifs at hstep with hfresh
      cases hstep
      rcases List.mem_append.1 hd' with hd' | hd'
      · exact absurd rfl (hnew d' hd' hpending)
      · rw [List.mem_singleton.1 hd']
        exact ⟨row, id, rfl⟩
  | cascade gone =>
      cases hstep
      exact absurd rfl (hnew d' (List.mem_filter.1 hd').1 hpending)
  | round w now scan committed called =>
      simp only [DispatchLife.step] at hstep
      split_ifs at hstep with hscan
      cases hstep
      obtain ⟨d, hd, hcases⟩ := DispatchLife.mem_deliver h.keyed hscan hd'
      rcases hcases with ⟨-, rfl, hp⟩ | ⟨-, rfl⟩
      · exact absurd (d.attempt_cases settings (w d) now).1.1.symm (hnew d hd hp)
      · exact absurd rfl (hnew _ hd hpending)

def tableRun (run : DispatchRun settings) :
    Ladder.TableRun (dispatchLadder settings) settings.batchSize where
  rows k := (run.life k).rows
  beat k := beat (run.action k)
  keyed := (reached_life 0).sound.keyed
  step k := takes (reached_life k).sound (run.step k)

theorem Fair.tableRun (h : run.Fair) : run.tableRun.Fair := by
  refine ⟨fun K T => ?_, fun T => ?_⟩
  · obtain ⟨k, hk, w, now, scan, committed, called, haction, hwhole, hnow⟩ := h.rounds K T
    refine ⟨k, hk, now, scan, w, committed, ?_, hwhole, hnow⟩
    change beat (run.action k) = _
    rw [haction, beat]
  · obtain ⟨K, hK⟩ := h.arrivals T
    refine ⟨K, fun k hk d' hd' hpending hnew => ?_⟩
    obtain ⟨row, id, haction⟩ := enqueued_of_new (reached_life k).sound (run.step k) hd'
      (of_decide_eq_true hpending) fun d hd hp => hnew d hd (decide_eq_true hp)
    exact hK k hk row id _ haction

/-- Every row is delivered, failed or deleted in the end. -/
theorem Fair.row_settled (h : run.Fair) (id k : ℕ) :
    ∃ m ≥ k, ∀ d ∈ (run.life m).rows, d.id = id → d.status ≠ .pending := by
  obtain ⟨m, hm, hsettled⟩ := h.tableRun.settles settings.batchSize_pos id k
  exact ⟨m, hm, fun d hd hid => of_decide_eq_false (hsettled d hd hid)⟩

open DispatchLife in
def unansweredLife : ℕ → DispatchLife
  | 0 => { rows := [queued] }
  | k + 1 => (unansweredLife k).deliver twice
      (fun _ => announced (some (.crash "ConnectError"))) k (unansweredLife k).rows 1 false

def unanswered : DispatchRun DispatchLife.twice where
  life := unansweredLife
  action k := .round (fun _ => DispatchLife.announced (some (.crash "ConnectError"))) k
    (unansweredLife k).rows 1 false
  reached := DispatchLife.queued_reached
  step _ := if_pos (List.Perm.refl _)

theorem unanswered_fair : unanswered.Fair := by
  refine ⟨fun K T => ?_, fun T => ⟨0, fun _ _ row id now h => DispatchAction.noConfusion h⟩⟩
  refine ⟨max K T.toNat, le_max_left _ _, _, (max K T.toNat : ℕ), _, 1, _, rfl, ?_, ?_⟩
  · exact List.length_take_le _ _
  · have := le_max_right K T.toNat
    omega

theorem unanswered_settled :
    ∃ m ≥ 0, ∀ d ∈ (unanswered.life m).rows, d.id = 7 → d.status ≠ .pending :=
  Fair.row_settled unanswered_fair 7 0

end DispatchRun
end IcebergSST
