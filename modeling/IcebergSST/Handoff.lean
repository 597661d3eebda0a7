import IcebergSST.Library.Machine
import IcebergSST.Library.WriteBack
import IcebergSST.Text

/-!
# The identity of a work item that was handed over

One hand-over of a finding to a target, its row with every version it has had. A delivery
round, a callback and a replay each load the row, work on the copy and write the columns
they changed back over the row that stands by then; a delivery sends in between, and may
take as long as the receiver lets it.

The key is never written again. What the receiver calls the work item is kept in every
run whose successful deliveries are told a name for it, or loaded a row without one.
-/

namespace IcebergSST

inductive HandoffStatus
  | pending
  | delivered
  | failed
  deriving DecidableEq, Repr

inductive HandoffExternalState
  | opened
  | inProgress
  | resolved
  | rejected
  | cancelled
  deriving DecidableEq, Repr

/-- What a receiver names a work item by. -/
inductive Reference
  | id
  | url
  deriving DecidableEq, Repr

instance : Fintype Reference where
  elems := {.id, .url}
  complete r := by cases r <;> decide

def Reference.limit : Reference → ℕ
  | .id => 255
  | .url => 2048

/-- `iceberg-handoff-<target>-<finding>` -/
structure HandoffKey where
  targetId : ℕ
  findingId : ℕ
  deriving DecidableEq, Repr

structure FindingHandoff where
  idempotencyKey : HandoffKey
  status : HandoffStatus := .pending
  attempts : ℕ := 0
  nextAttemptAt : ℤ
  deliveredAt : Option ℤ := none
  lastError : Option String := none
  externalId : Option String := none
  externalUrl : Option String := none
  externalState : Option HandoffExternalState := none
  externalStateAt : Option ℤ := none
  lastCallbackAt : Option ℤ := none
  deriving DecidableEq

namespace FindingHandoff

def reference (h : FindingHandoff) : Reference → Option String
  | .id => h.externalId
  | .url => h.externalUrl

def writeBack (loaded assigned stored : FindingHandoff) : FindingHandoff where
  idempotencyKey :=
    Column.writeBack loaded.idempotencyKey assigned.idempotencyKey stored.idempotencyKey
  status := Column.writeBack loaded.status assigned.status stored.status
  attempts := Column.writeBack loaded.attempts assigned.attempts stored.attempts
  nextAttemptAt := Column.writeBack loaded.nextAttemptAt assigned.nextAttemptAt stored.nextAttemptAt
  deliveredAt := Column.writeBack loaded.deliveredAt assigned.deliveredAt stored.deliveredAt
  lastError := Column.writeBack loaded.lastError assigned.lastError stored.lastError
  externalId := Column.writeBack loaded.externalId assigned.externalId stored.externalId
  externalUrl := Column.writeBack loaded.externalUrl assigned.externalUrl stored.externalUrl
  externalState := Column.writeBack loaded.externalState assigned.externalState stored.externalState
  externalStateAt :=
    Column.writeBack loaded.externalStateAt assigned.externalStateAt stored.externalStateAt
  lastCallbackAt :=
    Column.writeBack loaded.lastCallbackAt assigned.lastCallbackAt stored.lastCallbackAt

theorem reference_writeBack (loaded assigned stored : FindingHandoff) (r : Reference) :
    (writeBack loaded assigned stored).reference r =
      Column.writeBack (loaded.reference r) (assigned.reference r) (stored.reference r) := by
  cases r <;> rfl

end FindingHandoff

def truncated (limit : ℕ) (text : String) : String := String.ofList (text.toList.take limit)

def bounded (value : Option String) (limit : ℕ) : Option String :=
  (value.map fun text => truncated limit (strip text)).filter (· ≠ "")

structure DeliverySettings where
  maxAttempts : ℕ
  backoffSeconds : ℕ

structure DeliveryError where
  text : String
  permanent : Bool := false

/-- How one attempt goes: what it refers to is gone or was disabled, the receiver accepts
and may name the work item, or the sending fails. -/
inductive Sending
  | unreferenced
  | disabled
  | accepted (reply : Reference → Option String)
  | refused (error : DeliveryError)

namespace FindingHandoff

def fail (h : FindingHandoff) (reason : String) (now : ℤ) : FindingHandoff :=
  { h with status := .failed, lastError := bounded (some reason) 500, nextAttemptAt := now }

def retryOrFail (h : FindingHandoff) (error : DeliveryError) (settings : DeliverySettings)
    (now : ℤ) : FindingHandoff :=
  if error.permanent ∨ settings.maxAttempts ≤ h.attempts then h.fail error.text now
  else
    { h with
      nextAttemptAt := now + settings.backoffSeconds * 2 ^ (h.attempts - 1)
      lastError := bounded (some error.text) 500 }

def attempt (h : FindingHandoff) (settings : DeliverySettings) (sending : Sending) (now : ℤ) :
    FindingHandoff :=
  let h := { h with attempts := h.attempts + 1 }
  match sending with
  | .unreferenced => h.fail "referenced row no longer exists" now
  | .disabled => h.fail "target disabled before delivery" now
  | .refused error => h.retryOrFail error settings now
  | .accepted reply =>
      { h with
        externalId := bounded (reply .id) Reference.id.limit
        externalUrl := bounded (reply .url) Reference.url.limit
        status := .delivered
        deliveredAt := some now
        lastError := none }

/-- Put a failed hand-over back in the queue. The key stays. -/
def replay (h : FindingHandoff) (now : ℤ) : FindingHandoff :=
  { h with status := .pending, attempts := 0, nextAttemptAt := now, lastError := none }

end FindingHandoff

structure HandoffCallback where
  state : HandoffExternalState
  stateAt : Option ℤ := none
  externalId : Option String := none
  externalUrl : Option String := none
  deriving DecidableEq

/-- What a callback says of the work item's name; an empty text says nothing. -/
def HandoffCallback.named (c : HandoffCallback) : Reference → Option String
  | .id => (c.externalId.filter (· ≠ "")).map (truncated Reference.id.limit)
  | .url => (c.externalUrl.filter (· ≠ "")).map (truncated Reference.url.limit)

namespace FindingHandoff

def Stale (h : FindingHandoff) (c : HandoffCallback) : Prop :=
  ∃ t ∈ c.stateAt, ∃ u ∈ h.externalStateAt, t < u

instance (h : FindingHandoff) (c : HandoffCallback) : Decidable (h.Stale c) :=
  decidable_of_iff (c.stateAt.any fun t => h.externalStateAt.any fun u => t < u) (by
    simp [Stale, Option.any_eq_true])

def record (h : FindingHandoff) (c : HandoffCallback) (now : ℤ) : FindingHandoff :=
  if h.Stale c then { h with lastCallbackAt := some now }
  else
    { h with
      externalState := some c.state
      externalStateAt := some (c.stateAt.getD now)
      lastCallbackAt := some now
      -- silence is not a retraction
      externalId := c.named .id <|> h.externalId
      externalUrl := c.named .url <|> h.externalUrl }

end FindingHandoff

structure HandoffLife where
  row : FindingHandoff
  /-- Every version of the row, the present one last. -/
  versions : List FindingHandoff
  /-- The key each sending carried. -/
  sent : List HandoffKey := []

inductive HandoffAction
  | attempt (read : ℕ) (sending : Sending) (now : ℤ)
  | callback (read : ℕ) (c : HandoffCallback) (now : ℤ)
  | replay (read : ℕ) (now : ℤ)

def Sending.carried (sending : Sending) (h : FindingHandoff) : List HandoffKey :=
  match sending with
  | .unreferenced | .disabled => []
  | .accepted _ | .refused _ => [h.idempotencyKey]

namespace HandoffLife

variable (settings : DeliverySettings)

def requested (key : HandoffKey) (now : ℤ) : HandoffLife where
  row := { idempotencyKey := key, nextAttemptAt := now }
  versions := [{ idempotencyKey := key, nextAttemptAt := now }]

def commit (w : HandoffLife) (loaded assigned : FindingHandoff) : HandoffLife :=
  { w with
    row := loaded.writeBack assigned w.row
    versions := w.versions ++ [loaded.writeBack assigned w.row] }

def step (w : HandoffLife) : HandoffAction → Option HandoffLife
  | .attempt read sending now =>
      w.versions[read]?.bind fun loaded =>
        if loaded.status = .pending ∧ loaded.nextAttemptAt ≤ now then
          some { w.commit loaded (loaded.attempt settings sending now) with
            sent := w.sent ++ sending.carried loaded }
        else none
  | .callback read c now =>
      w.versions[read]?.map fun loaded => w.commit loaded (loaded.record c now)
  | .replay read now =>
      w.versions[read]?.bind fun loaded =>
        if loaded.status = .failed then some (w.commit loaded (loaded.replay now)) else none

/-- A receiver that accepts names the work item, where the row that was loaded did. -/
def Answers (w : HandoffLife) : HandoffAction → Prop
  | .attempt read (.accepted reply) _ => ∀ loaded ∈ w.versions[read]?, ∀ r : Reference,
      loaded.reference r ≠ none → bounded (reply r) r.limit ≠ none
  | _ => True

def Recorded (h : FindingHandoff) (r : Reference) : Prop := ∃ text ∈ h.reference r, text ≠ ""

end HandoffLife

def Named (value : Option String) : Prop := ∀ text ∈ value, text ≠ ""

theorem named_none : Named none := fun _ h => absurd h (Option.not_mem_none _)

theorem named_bounded (value : Option String) (limit : ℕ) : Named (bounded value limit) := by
  intro text htext
  have hkept := Option.filter_eq_some_iff.1 htext
  simpa using hkept.2

theorem truncated_ne_empty {limit : ℕ} {text : String} (hlimit : 0 < limit) (htext : text ≠ "") :
    truncated limit text ≠ "" := by
  intro h
  have hnil := congrArg String.toList h
  rw [truncated, String.toList_ofList] at hnil
  rcases List.take_eq_nil_iff.1 hnil with hzero | hempty
  · omega
  · exact htext (String.toList_inj.1 hempty)

theorem named_callback (c : HandoffCallback) (r : Reference) : Named (c.named r) := by
  have hfilter : ∀ (value : Option String) (limit : ℕ), 0 < limit →
      Named ((value.filter (· ≠ "")).map (truncated limit)) := by
    intro value limit hlimit text htext
    obtain ⟨text', hkept, rfl⟩ := Option.map_eq_some_iff.1 htext
    have hne := (Option.filter_eq_some_iff.1 hkept).2
    exact truncated_ne_empty hlimit (by simpa using hne)
  cases r with
  | id => exact hfilter c.externalId _ (by decide)
  | url => exact hfilter c.externalUrl _ (by decide)

namespace FindingHandoff

def Keeps (loaded assigned : FindingHandoff) : Prop :=
  ∀ r, loaded.reference r ≠ none → assigned.reference r ≠ none

variable {h loaded assigned stored : FindingHandoff} {settings : DeliverySettings} {now : ℤ}

theorem idempotencyKey_writeBack (hkey : assigned.idempotencyKey = loaded.idempotencyKey) :
    (writeBack loaded assigned stored).idempotencyKey = stored.idempotencyKey := by
  unfold writeBack
  rw [hkey]
  exact Column.writeBack_clean _ _

/-- A name on record is lost to a copy that has none although the row it was loaded from
had one, and to no other. -/
theorem reference_writeBack_ne_none_iff {r : Reference} (hstored : stored.reference r ≠ none) :
    (writeBack loaded assigned stored).reference r ≠ none ↔
      (loaded.reference r ≠ none → assigned.reference r ≠ none) := by
  rw [reference_writeBack]
  by_cases hsame : assigned.reference r = loaded.reference r
  · rw [hsame, Column.writeBack_clean]
    exact iff_of_true hstored id
  · rw [Column.writeBack_dirty hsame]
    constructor
    · exact fun hassigned _ => hassigned
    · intro hkeep hnone
      apply hsame
      by_contra hne
      apply hkeep _ hnone
      intro hloaded
      rw [hnone, hloaded] at hne
      exact hne rfl

theorem named_writeBack {r : Reference} (hassigned : Named (assigned.reference r))
    (hstored : Named (stored.reference r)) :
    Named ((writeBack loaded assigned stored).reference r) := by
  rw [reference_writeBack]
  rcases Column.writeBack_eq_or (loaded.reference r) (assigned.reference r) (stored.reference r)
    with heq | heq
  · rwa [heq]
  · rwa [heq]

theorem attempt_cases (h : FindingHandoff) (settings : DeliverySettings) (sending : Sending)
    (now : ℤ) :
    (h.attempt settings sending now).idempotencyKey = h.idempotencyKey ∧
      ((∃ reply, sending = .accepted reply ∧
          ∀ r, (h.attempt settings sending now).reference r = bounded (reply r) r.limit) ∨
        ∀ r, (h.attempt settings sending now).reference r = h.reference r) := by
  cases sending with
  | unreferenced | disabled =>
      refine ⟨rfl, Or.inr ?_⟩
      intro r
      cases r <;> rfl
  | accepted reply =>
      refine ⟨rfl, Or.inl ⟨reply, rfl, ?_⟩⟩
      intro r
      cases r <;> rfl
  | refused error =>
      unfold attempt retryOrFail
      dsimp only
      by_cases hgiven : error.permanent ∨ settings.maxAttempts ≤ h.attempts + 1
      · rw [if_pos hgiven]
        refine ⟨rfl, Or.inr ?_⟩
        intro r
        cases r <;> rfl
      · rw [if_neg hgiven]
        refine ⟨rfl, Or.inr ?_⟩
        intro r
        cases r <;> rfl

theorem record_reference (h : FindingHandoff) (c : HandoffCallback) (now : ℤ) (r : Reference) :
    (h.record c now).reference r =
      if h.Stale c then h.reference r else c.named r <|> h.reference r := by
  unfold record
  by_cases hstale : h.Stale c
  · rw [if_pos hstale, if_pos hstale]
    cases r <;> rfl
  · rw [if_neg hstale, if_neg hstale]
    cases r <;> rfl

theorem record_idempotencyKey (h : FindingHandoff) (c : HandoffCallback) (now : ℤ) :
    (h.record c now).idempotencyKey = h.idempotencyKey := by
  unfold record
  by_cases hstale : h.Stale c
  · rw [if_pos hstale]
  · rw [if_neg hstale]

theorem keeps_record (h : FindingHandoff) (c : HandoffCallback) (now : ℤ) :
    Keeps h (h.record c now) := by
  intro r hr
  rw [record_reference]
  by_cases hstale : h.Stale c
  · rwa [if_pos hstale]
  · rw [if_neg hstale]
    cases c.named r with
    | none => exact hr
    | some text => exact Option.some_ne_none text

theorem named_record (c : HandoffCallback) (now : ℤ) {r : Reference}
    (hr : Named (h.reference r)) : Named ((h.record c now).reference r) := by
  rw [record_reference]
  by_cases hstale : h.Stale c
  · rwa [if_pos hstale]
  · rw [if_neg hstale]
    have hcallback := named_callback c r
    cases hc : c.named r with
    | none => exact hr
    | some text =>
        rw [hc] at hcallback
        exact hcallback

end FindingHandoff

namespace HandoffLife

variable {settings : DeliverySettings} {w w' : HandoffLife}

structure Sound (w : HandoffLife) : Prop where
  current : w.row ∈ w.versions
  key : ∀ v ∈ w.versions, v.idempotencyKey = w.row.idempotencyKey
  sent : ∀ k ∈ w.sent, k = w.row.idempotencyKey
  named : ∀ v ∈ w.versions, ∀ r, Named (v.reference r)
  kept : ∀ v ∈ w.versions, ∀ r, v.reference r ≠ none → w.row.reference r ≠ none

theorem sound_requested (key : HandoffKey) (now : ℤ) : (requested key now).Sound where
  current := List.mem_singleton_self _
  key := by
    intro v hv
    rw [List.mem_singleton.1 hv]
    rfl
  sent := fun k hk => by cases hk
  named := by
    intro v hv r
    rw [List.mem_singleton.1 hv]
    cases r <;> exact named_none
  kept := by
    intro v hv r hr
    rwa [List.mem_singleton.1 hv] at hr

theorem Sound.commit (hs : w.Sound) {loaded assigned : FindingHandoff}
    (hloaded : loaded ∈ w.versions) (hkey : assigned.idempotencyKey = loaded.idempotencyKey)
    (hnamed : ∀ r, Named (assigned.reference r)) (hkeeps : loaded.Keeps assigned)
    {sent : List HandoffKey} (hsent : ∀ k ∈ sent, k ∈ w.sent ∨ k = loaded.idempotencyKey) :
    ({ w.commit loaded assigned with sent } : HandoffLife).Sound := by
  have hrow : (loaded.writeBack assigned w.row).idempotencyKey = w.row.idempotencyKey :=
    FindingHandoff.idempotencyKey_writeBack hkey
  have hname : ∀ r, w.row.reference r ≠ none →
      (loaded.writeBack assigned w.row).reference r ≠ none := by
    intro r hr
    exact (FindingHandoff.reference_writeBack_ne_none_iff hr).2 (hkeeps r)
  constructor
  · exact List.mem_append_right _ (List.mem_singleton_self _)
  · intro v hv
    rcases List.mem_append.1 hv with hv | hv
    · exact (hs.key v hv).trans hrow.symm
    · rw [List.mem_singleton.1 hv]
      rfl
  · intro k hk
    rcases hsent k hk with hk | rfl
    · exact (hs.sent k hk).trans hrow.symm
    · exact (hs.key loaded hloaded).trans hrow.symm
  · intro v hv r
    rcases List.mem_append.1 hv with hv | hv
    · exact hs.named v hv r
    · rw [List.mem_singleton.1 hv]
      exact FindingHandoff.named_writeBack (hnamed r) (hs.named w.row hs.current r)
  · intro v hv r hr
    rcases List.mem_append.1 hv with hv | hv
    · exact hname r (hs.kept v hv r hr)
    · rwa [List.mem_singleton.1 hv] at hr

theorem Sound.step (hs : w.Sound) {a : HandoffAction} (ha : w.Answers a)
    (h : w.step settings a = some w') : w'.Sound := by
  cases a with
  | attempt read sending now =>
      obtain ⟨loaded, hread, hcommit⟩ := Option.bind_eq_some_iff.1 h
      split_ifs at hcommit
      obtain rfl := Option.some.inj hcommit
      have hloaded := List.mem_of_getElem? hread
      obtain ⟨hkey, hreference⟩ := loaded.attempt_cases settings sending now
      have hsent : ∀ k ∈ w.sent ++ sending.carried loaded,
          k ∈ w.sent ∨ k = loaded.idempotencyKey := by
        intro k hk
        rcases List.mem_append.1 hk with hk | hk
        · exact Or.inl hk
        · right
          cases sending with
          | unreferenced => cases hk
          | disabled => cases hk
          | accepted reply => exact List.mem_singleton.1 hk
          | refused error => exact List.mem_singleton.1 hk
      rcases hreference with ⟨reply, rfl, hreply⟩ | hsame
      · refine hs.commit hloaded hkey ?_ ?_ hsent
        · intro r
          rw [hreply]
          exact named_bounded _ _
        · intro r hr
          rw [hreply]
          exact ha loaded hread r hr
      · refine hs.commit hloaded hkey ?_ ?_ hsent
        · intro r
          rw [hsame]
          exact hs.named loaded hloaded r
        · intro r hr
          rwa [hsame]
  | callback read c now =>
      obtain ⟨loaded, hread, rfl⟩ := Option.map_eq_some_iff.1 h
      have hloaded := List.mem_of_getElem? hread
      exact hs.commit hloaded (loaded.record_idempotencyKey c now)
        (fun r => FindingHandoff.named_record c now (hs.named loaded hloaded r))
        (loaded.keeps_record c now) fun k hk => Or.inl hk
  | replay read now =>
      obtain ⟨loaded, hread, hcommit⟩ := Option.bind_eq_some_iff.1 h
      split_ifs at hcommit
      obtain rfl := Option.some.inj hcommit
      have hloaded := List.mem_of_getElem? hread
      have hsame : ∀ r, (loaded.replay now).reference r = loaded.reference r := by
        intro r
        cases r <;> rfl
      have hkey : (loaded.replay now).idempotencyKey = loaded.idempotencyKey := rfl
      refine hs.commit hloaded hkey ?_ ?_ fun k hk => Or.inl hk
      · intro r
        rw [hsame]
        exact hs.named loaded hloaded r
      · intro r hr
        rwa [hsame]

def IsRequested (w : HandoffLife) : Prop := ∃ key now, w = requested key now

theorem sound_of_reachable (hw : Machine.Reachable (step settings) Answers IsRequested w) :
    w.Sound := by
  apply hw.invariant
  · rintro w ⟨key, now, rfl⟩
    exact sound_requested key now
  · intro w a w' hs ha hstep
    exact hs.step ha hstep

/-- In every run whose successful deliveries are told a name for each one they loaded, a
name that was ever on record is on record, and every sending carries the first one's key. -/
theorem handoff_identity_is_kept
    (hw : Machine.Reachable (step settings) Answers IsRequested w) :
    (∀ v ∈ w.versions, ∀ r, Recorded v r → Recorded w.row r) ∧
      ∀ k ∈ w.sent, ∀ first ∈ w.sent.head?, k = first := by
  have hs := sound_of_reachable hw
  constructor
  · intro v hv r ⟨text, htext, _⟩
    have hne : v.reference r ≠ none := by
      rw [Option.mem_def.1 htext]
      exact Option.some_ne_none text
    obtain ⟨text', htext'⟩ := Option.ne_none_iff_exists'.1 (hs.kept v hv r hne)
    exact ⟨text', htext', hs.named w.row hs.current r text' htext'⟩
  · intro k hk first hfirst
    exact (hs.sent k hk).trans (hs.sent first (List.mem_of_mem_head? hfirst)).symm

/-- A delivery that is accepted takes a name off record exactly when it is told none and
the row it loaded had one. -/
theorem accepted_blanks_iff {loaded stored : FindingHandoff} {reply : Reference → Option String}
    {now : ℤ} {r : Reference} (hstored : stored.reference r ≠ none) :
    (loaded.writeBack (loaded.attempt settings (.accepted reply) now) stored).reference r = none ↔
      loaded.reference r ≠ none ∧ bounded (reply r) r.limit = none := by
  have hattempt : (loaded.attempt settings (.accepted reply) now).reference r =
      bounded (reply r) r.limit := by cases r <;> rfl
  have hkeep : (loaded.writeBack (loaded.attempt settings (.accepted reply) now)
      stored).reference r ≠ none ↔ _ := FindingHandoff.reference_writeBack_ne_none_iff hstored
  rw [hattempt] at hkeep
  rw [← not_iff_not, ← ne_eq, hkeep, not_and]

instance (h : FindingHandoff) (r : Reference) : Decidable (Recorded h r) :=
  decidable_of_iff ((h.reference r).any (· ≠ "")) (by
    simp [Recorded, Option.any_eq_true])

instance (w : HandoffLife) (a : HandoffAction) : Decidable (w.Answers a) :=
  match a with
  | .attempt read (.accepted reply) _ =>
      inferInstanceAs (Decidable (∀ loaded ∈ w.versions[read]?, ∀ r : Reference,
        loaded.reference r ≠ none → bounded (reply r) r.limit ≠ none))
  | .attempt _ .unreferenced _ | .attempt _ .disabled _ | .attempt _ (.refused _) _
  | .callback .. | .replay .. => .isTrue trivial

/-- The reply to the first attempt is lost, a callback names the work item, and the
second attempt is answered with the name. -/
def lostReply (reply : Reference → Option String) : List HandoffAction :=
  [.attempt 0 (.refused ⟨"handoff request failed: ReadTimeout", false⟩) 0,
    .callback 1 ⟨.opened, none, some "T-1", none⟩ 5, .attempt 2 (.accepted reply) 60]

theorem handoff_identity_is_kept_after_a_lost_reply : ∃ w : HandoffLife,
    w.sent = [⟨1, 2⟩, ⟨1, 2⟩] ∧ w.row.externalId = some "T-1" ∧
      (∀ v ∈ w.versions, ∀ r, Recorded v r → Recorded w.row r) ∧
      ∀ k ∈ w.sent, ∀ first ∈ w.sent.head?, k = first := by
  have hrun : (Machine.run (step ⟨5, 60⟩) Answers (requested ⟨1, 2⟩ 0)
      (lostReply fun _ => some " T-1 ")).any fun w =>
        w.sent = [⟨1, 2⟩, ⟨1, 2⟩] ∧ w.row.externalId = some "T-1" := by
    decide +kernel
  have hreach : Machine.Reachable (step ⟨5, 60⟩) Answers IsRequested (requested ⟨1, 2⟩ 0) :=
    .start ⟨_, _, rfl⟩
  obtain ⟨w, hw, hsent, hid⟩ := hreach.exists_of_run hrun
  exact ⟨w, hsent, hid, handoff_identity_is_kept hw⟩

/-- The second attempt is accepted without a name, and the one on record is gone. -/
theorem handoff_identity_is_blanked : ∃ w : HandoffLife,
    Machine.Reachable (step ⟨5, 60⟩) (fun _ _ => True) IsRequested w ∧
      ∃ v ∈ w.versions, Recorded v .id ∧ ¬ Recorded w.row .id := by
  have hrun : (Machine.run (step ⟨5, 60⟩) (fun _ _ => True) (requested ⟨1, 2⟩ 0)
      (lostReply fun _ => none)).any fun w => ∃ v ∈ w.versions, Recorded v .id ∧
        ¬ Recorded w.row .id := by
    decide +kernel
  have hreach : Machine.Reachable (step ⟨5, 60⟩) (fun _ _ => True) IsRequested
      (requested ⟨1, 2⟩ 0) := .start ⟨_, _, rfl⟩
  exact hreach.exists_of_run hrun

end HandoffLife

end IcebergSST
