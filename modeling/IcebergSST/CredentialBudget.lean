import IcebergSST.Library.RateWindow
import IcebergSST.Validation

/-!
# The budget of a validator

Every task has an executor of its own, and all of them ask one limiter before a credential
reaches a provider: a log of the process, or a counter that the engines share. The tasks run
side by side, so any steps of others can fall between reading the clock, being served by the
limiter and sending the request. However they do, a provider sees no more than the budget.
-/

namespace IcebergSST.Validation

open RateWindow

/-- What a validation comes to before the limiter: an answer, or a call to ask for. -/
inductive Consulted
  | answered (outcome : Option ValidationOutcome)
  | asks (policy : ValidationPolicy) (validator : CredentialValidator)
  deriving DecidableEq, Repr

namespace ValidationExecutor

variable (x : ValidationExecutor)

def counted (st : ExecutorState) : ExecutorState := { st with asked := st.asked + 1 }

def consult (st : ExecutorState) (ruleId secretHash : String) : ExecutorState × Consulted :=
  match x.policyFor ruleId with
  | none => (counted st, .answered none)
  | some policy =>
      match x.registry policy.1.validatorId with
      | none => (counted st, .answered none)
      | some validator =>
          match st.cache (policy.1.validatorId, secretHash) with
          | some cached => (counted st, .answered (some cached))
          | none =>
              if policy.1.maxAttemptsPerTask ≤ st.attempts policy.1.policyId then
                (remember st (policy.1.validatorId, secretHash) (blocked validator),
                  .answered (some (blocked validator)))
              else (st, .asks policy.1 validator)

/-- The rest of a validation: the limiter denied, or the provider answered. -/
def conclude (world : World) (secretHash secret : String) :
    ExecutorState × Consulted → ExecutorState × Validated
  | (st, .answered outcome) => (st, { outcome })
  | (st, .asks policy validator) =>
      if world.granted then
        (remember (spend st policy.policyId) (policy.validatorId, secretHash) world.answer,
          { outcome := some world.answer, call := some { policy, secretHash, secret } })
      else
        (remember st (policy.validatorId, secretHash) (blocked validator),
          { outcome := some (blocked validator) })

theorem validate_eq (world : ℕ → World) (st : ExecutorState) (ruleId secretHash secret : String) :
    x.validate world st ruleId secretHash secret =
      conclude (world st.asked) secretHash secret (x.consult st ruleId secretHash) := by
  unfold validate consult
  rcases x.policyFor ruleId with _ | p
  · rfl
  · dsimp only
    rcases x.registry p.1.validatorId with _ | validator
    · rfl
    · dsimp only
      rcases st.cache (p.1.validatorId, secretHash) with _ | cached
      · by_cases hspent : p.1.maxAttemptsPerTask ≤ st.attempts p.1.policyId
        · simp only [hspent, if_true, conclude]
        · cases hgranted : (world st.asked).granted <;>
            simp only [hspent, hgranted, if_true, if_false, conclude, Bool.not_true,
              Bool.not_false, Bool.false_eq_true]
      · rfl

variable {x} {st st' : ExecutorState} {ruleId secretHash : String} {policy : ValidationPolicy}
  {validator : CredentialValidator}

theorem mem_of_consult (h : x.consult st ruleId secretHash = (st', .asks policy validator)) :
    ∃ p ∈ x.policies, p.1 = policy := by
  unfold consult at h
  split at h
  · cases h
  · rename_i p hp
    have hmem := (policyFor_some hp).1
    split at h
    · cases h
    · split at h
      · cases h
      · split_ifs at h
        · cases h
        · cases h
          exact ⟨p, hmem, rfl⟩

end ValidationExecutor

/-- `acquire` with the clock read at `read`, served at `now`. -/
abbrev Serves (σ : Type) := σ → (now read : ℚ) → String → ℤ → Bool → σ → Prop

/-- The log of a process. The clock is read before the lock is taken. -/
structure MinuteLimiter where
  attempts : String → List ℚ := fun _ => []

def MinuteLimiter.acquire (s : MinuteLimiter) (read : ℚ) (validatorId : String) (limit : ℤ) :
    Bool × MinuteLimiter :=
  let served := RateWindow.acquire 60 read limit (s.attempts validatorId)
  (served.1, { s with attempts := Function.update s.attempts validatorId served.2 })

def MinuteLimiter.Serves : Serves MinuteLimiter := fun s _ read validatorId limit granted s' =>
  s.acquire read validatorId limit = (granted, s')

/-- The keys of the server, by name. -/
structure RedisCounters where
  counters : String → Option (Counter ℚ) := fun _ => none

inductive ScriptFate
  | unreachable
  | lost
  | replied
  deriving DecidableEq, Repr

def redisKey (validatorId : String) : String := "icebergsst:credential-validation:" ++ validatorId

/-- `isalnum` is Python's table of letters and digits. -/
def keyable (isalnum : Char → Bool) (validatorId : String) : Bool :=
  !validatorId.toList.isEmpty && validatorId.toList.all fun c => isalnum c || c == '-' || c == '_'

/-- `INCR`, `EXPIRE` on the first use, and the comparison, in one script. -/
def RedisCounters.eval (s : RedisCounters) (now : ℚ) (key : String) (limit : ℤ) :
    Bool × RedisCounters :=
  let counter := incr 61 now (s.counters key)
  ((counter.count : ℤ) ≤ limit, { s with counters := Function.update s.counters key counter })

/-- A call that fails is denied, whether or not the script was run. -/
def RedisCounters.acquire (isalnum : Char → Bool) (s : RedisCounters) (now : ℚ)
    (validatorId : String) (limit : ℤ) (fate : ScriptFate) : Bool × RedisCounters :=
  if keyable isalnum validatorId then
    match fate with
    | .unreachable => (false, s)
    | .lost => (false, (s.eval now (redisKey validatorId) limit).2)
    | .replied => s.eval now (redisKey validatorId) limit
  else (false, s)

def RedisCounters.Serves (isalnum : Char → Bool) : Serves RedisCounters :=
  fun s now _ validatorId limit granted s' =>
    ∃ fate, s.acquire isalnum now validatorId limit fate = (granted, s')

inductive Phase
  | idle
  | asking (call : ProviderCall) (validator : CredentialValidator) (asked : ℚ)
  | cleared (call : ProviderCall) (grant : Permit ℚ)
  | sent (call : ProviderCall)

structure Worker where
  executor : ValidationExecutor
  state : ExecutorState := {}
  phase : Phase := .idle

/-- A credential that was sent to a provider, after the limiter granted it. -/
structure Request where
  call : ProviderCall
  grant : Permit ℚ
  sent : ℚ

structure Refusal where
  validatorId : String
  limit : ℤ
  asked : ℚ

/-- All threads that share a limiter. The lists from `leased` on are what happened so far; no
code reads them. -/
structure Fleet (σ : Type) where
  now : ℚ
  limiter : σ
  workers : List Worker := []
  leased : List ValidationExecutor := []
  grants : List (String × Permit ℚ) := []
  refusals : List Refusal := []
  requests : List Request := []

namespace Worker

variable (w : Worker)

/-- `validate`, up to the limiter; the clock is read at `now`. -/
def consult (now : ℚ) (ruleId secretHash secret : String) : Worker :=
  match w.executor.consult w.state ruleId secretHash with
  | (st, .answered _) => { w with state := st }
  | (st, .asks policy validator) =>
      { w with state := st, phase := .asking { policy, secretHash, secret } validator now }

def cleared (call : ProviderCall) (grant : Permit ℚ) : Worker :=
  { w with
    state := ValidationExecutor.spend w.state call.policy.policyId
    phase := .cleared call grant }

def conclude (call : ProviderCall) (outcome : ValidationOutcome) : Worker :=
  { w with
    state := ValidationExecutor.remember w.state (call.policy.validatorId, call.secretHash) outcome
    phase := .idle }

/-- The steps of a thread come to what `validate` does at once. -/
theorem state_validate (world : ℕ → World) (now : ℚ) (grant : Permit ℚ)
    {ruleId secretHash secret : String} {st : ExecutorState} {policy : ValidationPolicy}
    {validator : CredentialValidator}
    (h : w.executor.consult w.state ruleId secretHash = (st, .asks policy validator)) :
    (w.executor.validate world w.state ruleId secretHash secret).1 =
      (if (world w.state.asked).granted then
        ((w.consult now ruleId secretHash secret).cleared ⟨policy, secretHash, secret⟩
          grant).conclude ⟨policy, secretHash, secret⟩ (world w.state.asked).answer
      else
        (w.consult now ruleId secretHash secret).conclude ⟨policy, secretHash, secret⟩
          (blocked validator)).state := by
  rw [ValidationExecutor.validate_eq, h]
  unfold Worker.consult ValidationExecutor.conclude
  rw [h]
  split_ifs <;> rfl

def held : Option (String × Permit ℚ) :=
  match w.phase with
  | .cleared call grant => some (call.policy.validatorId, grant)
  | _ => none

end Worker

namespace Fleet

variable {σ : Type}

/-- A thread is between `before` and `after` in the list of all. A task begins with an
executor of its own, and its thread can end anywhere. -/
inductive Step (serves : Serves σ) : Fleet σ → Fleet σ → Prop
  | tick {f : Fleet σ} {now : ℚ} : f.now ≤ now → Step serves f { f with now }
  | lease {f : Fleet σ} {x : ValidationExecutor} :
      Step serves f
        { f with workers := f.workers ++ [{ executor := x }], leased := f.leased ++ [x] }
  | stop {f : Fleet σ} {before after : List Worker} {w : Worker} :
      f.workers = before ++ w :: after → Step serves f { f with workers := before ++ after }
  | consult {f : Fleet σ} {before after : List Worker} {w : Worker}
      {ruleId secretHash secret : String} :
      f.workers = before ++ w :: after → w.phase = .idle →
      Step serves f
        { f with workers := before ++ w.consult f.now ruleId secretHash secret :: after }
  | deny {f : Fleet σ} {before after : List Worker} {w : Worker} {call : ProviderCall}
      {validator : CredentialValidator} {asked : ℚ} {limiter : σ} :
      f.workers = before ++ w :: after → w.phase = .asking call validator asked →
      serves f.limiter f.now asked call.policy.validatorId call.policy.requestsPerMinute false
        limiter →
      Step serves f
        { f with
          limiter
          workers := before ++ w.conclude call (blocked validator) :: after
          refusals :=
            f.refusals ++ [⟨call.policy.validatorId, call.policy.requestsPerMinute, asked⟩] }
  | grant {f : Fleet σ} {before after : List Worker} {w : Worker} {call : ProviderCall}
      {validator : CredentialValidator} {asked : ℚ} {limiter : σ} :
      f.workers = before ++ w :: after → w.phase = .asking call validator asked →
      serves f.limiter f.now asked call.policy.validatorId call.policy.requestsPerMinute true
        limiter →
      Step serves f
        { f with
          limiter
          workers := before ++ w.cleared call ⟨asked, f.now⟩ :: after
          grants := f.grants ++ [(call.policy.validatorId, ⟨asked, f.now⟩)] }
  | send {f : Fleet σ} {before after : List Worker} {w : Worker} {call : ProviderCall}
      {grant : Permit ℚ} :
      f.workers = before ++ w :: after → w.phase = .cleared call grant →
      Step serves f
        { f with
          workers := before ++ { w with phase := .sent call } :: after
          requests := f.requests ++ [⟨call, grant, f.now⟩] }
  | answer {f : Fleet σ} {before after : List Worker} {w : Worker} {call : ProviderCall}
      {outcome : ValidationOutcome} :
      f.workers = before ++ w :: after → w.phase = .sent call →
      Step serves f { f with workers := before ++ w.conclude call outcome :: after }

inductive Reached (serves : Serves σ) (limiter : σ) : Fleet σ → Prop
  | start {now : ℚ} : Reached serves limiter { now, limiter }
  | step {f f' : Fleet σ} : Reached serves limiter f → Step serves f f' → Reached serves limiter f'

def grantsOf (validatorId : String) (grants : List (String × Permit ℚ)) : List (Permit ℚ) :=
  grants.filterMap fun g => if g.1 = validatorId then some g.2 else none

@[simp] theorem grantsOf_append (validatorId : String) (l m : List (String × Permit ℚ)) :
    grantsOf validatorId (l ++ m) = grantsOf validatorId l ++ grantsOf validatorId m :=
  List.filterMap_append

theorem grantsOf_same (validatorId : String) (g : Permit ℚ) :
    grantsOf validatorId [(validatorId, g)] = [g] := by simp [grantsOf]

theorem grantsOf_other {validatorId v : String} (h : v ≠ validatorId) (g : Permit ℚ) :
    grantsOf validatorId [(v, g)] = [] := by simp [grantsOf, h]

theorem countP_grantsOf (validatorId : String) (p : Permit ℚ → Bool)
    (grants : List (String × Permit ℚ)) :
    (grantsOf validatorId grants).countP p =
      grants.countP fun g => g.1 = validatorId && p g.2 := by
  induction grants with
  | nil => rfl
  | cons g grants ih =>
      rw [grantsOf, List.filterMap_cons] at *
      by_cases h : g.1 = validatorId <;> simp [h, List.countP_cons, ih]

/-- `Holds` relates a limiter to the grants of one validator, asked with limits up to `limit`. -/
structure Budget (serves : Serves σ) (validatorId : String) (limit : ℕ) (width : ℚ) (most : ℕ)
    (Holds : σ → ℚ → List (Permit ℚ) → Prop) : Prop where
  later : ∀ {s now now' grants}, Holds s now grants → now ≤ now' → Holds s now' grants
  other : ∀ {s s' now asked v l granted grants}, serves s now asked v l granted s' →
    v ≠ validatorId → Holds s now grants → Holds s' now grants
  deny : ∀ {s s' now asked l grants}, serves s now asked validatorId l false s' → asked ≤ now →
    l ≤ limit → Holds s now grants → Holds s' now grants
  grant : ∀ {s s' now asked l grants}, serves s now asked validatorId l true s' → asked ≤ now →
    l ≤ limit → Holds s now grants → Holds s' now (grants ++ [⟨asked, now⟩])
  paced : ∀ {s now grants}, Holds s now grants → Paced width most grants

def Within (validatorId : String) (limit : ℕ) (f : Fleet σ) : Prop :=
  ∀ x ∈ f.leased, ∀ p ∈ x.policies, p.1.validatorId = validatorId → p.1.requestsPerMinute ≤ limit

def outstanding (workers : List Worker) : List (String × Permit ℚ) := workers.filterMap Worker.held

/-- Every request used up a grant of its own, and so will every thread that holds one. -/
structure Kept (Holds : σ → ℚ → List (Permit ℚ) → Prop) (validatorId : String) (f : Fleet σ) :
    Prop where
  holds : Holds f.limiter f.now (grantsOf validatorId f.grants)
  executors : ∀ w ∈ f.workers, w.executor ∈ f.leased
  asking : ∀ w ∈ f.workers, ∀ call validator asked, w.phase = .asking call validator asked →
    asked ≤ f.now ∧ ∃ p ∈ w.executor.policies, p.1 = call.policy
  cleared : ∀ w ∈ f.workers, ∀ call grant, w.phase = .cleared call grant → grant.made ≤ f.now
  used : ∀ p : String × Permit ℚ → Bool,
    (f.requests.countP fun r => p (r.call.policy.validatorId, r.grant)) +
      (outstanding f.workers).countP p ≤ f.grants.countP p
  sent : ∀ r ∈ f.requests, r.grant.made ≤ r.sent

variable {serves : Serves σ} {limiter : σ} {validatorId : String} {limit most : ℕ} {width : ℚ}
  {Holds : σ → ℚ → List (Permit ℚ) → Prop} {f f' : Fleet σ} {before after : List Worker}
  {w w' : Worker} {P : Worker → Prop}

theorem forall_replaced (h : ∀ v ∈ before ++ w :: after, P v) (hw : P w') :
    ∀ v ∈ before ++ w' :: after, P v := by
  intro v hv
  simp only [List.mem_append, List.mem_cons] at h hv
  rcases hv with hv | rfl | hv
  · exact h v (Or.inl hv)
  · exact hw
  · exact h v (Or.inr (Or.inr hv))

theorem outstanding_append (l m : List Worker) :
    outstanding (l ++ m) = outstanding l ++ outstanding m := List.filterMap_append

theorem outstanding_cons (w : Worker) (l : List Worker) :
    outstanding (w :: l) = w.held.toList ++ outstanding l := by
  cases h : w.held <;> simp [outstanding, h]

theorem outstanding_replaced (h : w.held = none) (h' : w'.held = none) :
    outstanding (before ++ w' :: after) = outstanding (before ++ w :: after) := by
  simp only [outstanding_append, outstanding_cons, h, h']

theorem held_consult (hidle : w.phase = .idle) (now : ℚ) (ruleId secretHash secret : String) :
    (w.consult now ruleId secretHash secret).held = none := by
  unfold Worker.consult
  split
  · simp [Worker.held, hidle]
  · rfl

theorem Step.leased_subset (h : Step serves f f') : f.leased ⊆ f'.leased := by
  cases h with
  | lease => exact List.subset_append_left ..
  | _ => exact fun _ hx => hx

theorem Kept.replaced (h : Kept Holds validatorId f) (hworkers : f.workers = before ++ w :: after)
    (hheld : w.held = none) (hheld' : w'.held = none) (hexecutor : w'.executor = w.executor)
    (hasking : ∀ call validator asked, w'.phase = .asking call validator asked →
      asked ≤ f.now ∧ ∃ p ∈ w.executor.policies, p.1 = call.policy) :
    Kept Holds validatorId { f with workers := before ++ w' :: after } := by
  have hw : w ∈ f.workers := by simp [hworkers]
  refine ⟨h.holds, ?_, ?_, ?_, ?_, h.sent⟩
  · exact forall_replaced (hworkers ▸ h.executors) (hexecutor ▸ h.executors w hw)
  · exact forall_replaced (hworkers ▸ h.asking) (hexecutor ▸ hasking)
  · refine forall_replaced (hworkers ▸ h.cleared) fun call grant hphase => ?_
    rw [Worker.held, hphase] at hheld'
    cases hheld'
  · simpa only [outstanding_replaced hheld hheld', ← hworkers] using h.used

theorem Kept.tick (hb : Budget serves validatorId limit width most Holds)
    (h : Kept Holds validatorId f) {now : ℚ} (hle : f.now ≤ now) :
    Kept Holds validatorId { f with now } where
  holds := hb.later h.holds hle
  executors := h.executors
  asking := fun w hw call validator asked hphase =>
    ⟨(h.asking w hw call validator asked hphase).1.trans hle,
      (h.asking w hw call validator asked hphase).2⟩
  cleared := fun w hw call grant hphase => (h.cleared w hw call grant hphase).trans hle
  used := h.used
  sent := h.sent

theorem Kept.lease (h : Kept Holds validatorId f) (x : ValidationExecutor) :
    Kept Holds validatorId
      { f with workers := f.workers ++ [{ executor := x }], leased := f.leased ++ [x] } := by
  have hmem (v : Worker) (hv : v ∈ f.workers ++ [{ executor := x }]) :
      v ∈ f.workers ∨ v = { executor := x } := by simpa using hv
  refine ⟨h.holds, ?_, ?_, ?_, ?_, h.sent⟩
  · intro v hv
    rcases hmem v hv with hv | rfl
    · exact List.mem_append_left _ (h.executors v hv)
    · exact List.mem_append_right _ List.mem_cons_self
  · intro v hv call validator asked hphase
    rcases hmem v hv with hv | rfl
    · exact h.asking v hv call validator asked hphase
    · cases hphase
  · intro v hv call grant hphase
    rcases hmem v hv with hv | rfl
    · exact h.cleared v hv call grant hphase
    · cases hphase
  · have hsame : outstanding (f.workers ++ [{ executor := x }]) = outstanding f.workers := by
      rw [outstanding_append]
      exact List.append_nil _
    simpa only [hsame] using h.used

theorem Kept.stop (h : Kept Holds validatorId f) (hworkers : f.workers = before ++ w :: after) :
    Kept Holds validatorId { f with workers := before ++ after } := by
  have hmem (v : Worker) (hv : v ∈ before ++ after) : v ∈ f.workers := by
    rw [hworkers]
    simp only [List.mem_append, List.mem_cons] at hv ⊢
    exact hv.imp_right Or.inr
  refine ⟨h.holds, fun v hv => h.executors v (hmem v hv), fun v hv => h.asking v (hmem v hv),
    fun v hv => h.cleared v (hmem v hv), fun p => ?_, h.sent⟩
  have hused := h.used p
  simp only [hworkers, outstanding_append, outstanding_cons, List.countP_append] at hused ⊢
  omega

theorem Kept.consult (h : Kept Holds validatorId f) (hworkers : f.workers = before ++ w :: after)
    (hidle : w.phase = .idle) (ruleId secretHash secret : String) :
    Kept Holds validatorId
      { f with workers := before ++ w.consult f.now ruleId secretHash secret :: after } := by
  refine h.replaced hworkers (by simp [Worker.held, hidle]) (held_consult hidle ..) ?_ ?_
  · unfold Worker.consult
    split <;> rfl
  · intro call validator asked hphase
    unfold Worker.consult at hphase
    split at hphase
    · rw [hidle] at hphase
      cases hphase
    · rename_i hasks
      cases hphase
      exact ⟨le_rfl, ValidationExecutor.mem_of_consult hasks⟩

theorem Kept.conclude (h : Kept Holds validatorId f) (hworkers : f.workers = before ++ w :: after)
    (hheld : w.held = none) (call : ProviderCall) (outcome : ValidationOutcome) :
    Kept Holds validatorId
      { f with workers := before ++ w.conclude call outcome :: after } :=
  h.replaced hworkers hheld rfl rfl fun _ _ _ hphase => by cases hphase

theorem Kept.limit_le (h : Kept Holds validatorId f) (hwithin : Within validatorId limit f)
    (hw : w ∈ f.workers) {call : ProviderCall} {validator : CredentialValidator} {asked : ℚ}
    (hphase : w.phase = .asking call validator asked)
    (hcall : call.policy.validatorId = validatorId) :
    call.policy.requestsPerMinute ≤ limit := by
  obtain ⟨p, hp, hpolicy⟩ := (h.asking w hw call validator asked hphase).2
  rw [← hpolicy] at hcall ⊢
  exact hwithin _ (h.executors w hw) p hp hcall

theorem Kept.deny (hb : Budget serves validatorId limit width most Holds)
    (h : Kept Holds validatorId f) (hwithin : Within validatorId limit f)
    (hworkers : f.workers = before ++ w :: after) {call : ProviderCall}
    {validator : CredentialValidator} {asked : ℚ} {limiter : σ} (refusals : List Refusal)
    (hphase : w.phase = .asking call validator asked)
    (hserve : serves f.limiter f.now asked call.policy.validatorId call.policy.requestsPerMinute
      false limiter) :
    Kept Holds validatorId
      { f with
        limiter
        workers := before ++ w.conclude call (blocked validator) :: after
        refusals } := by
  have hw : w ∈ f.workers := by simp [hworkers]
  have hdone := h.conclude hworkers (by simp [Worker.held, hphase]) call (blocked validator)
  refine ⟨?_, hdone.executors, hdone.asking, hdone.cleared, hdone.used, hdone.sent⟩
  by_cases hcall : call.policy.validatorId = validatorId
  · have hlimit := h.limit_le hwithin hw hphase hcall
    rw [hcall] at hserve
    exact hb.deny hserve (h.asking w hw _ _ _ hphase).1 hlimit h.holds
  · exact hb.other hserve hcall h.holds

theorem Kept.grant (hb : Budget serves validatorId limit width most Holds)
    (h : Kept Holds validatorId f) (hwithin : Within validatorId limit f)
    (hworkers : f.workers = before ++ w :: after) {call : ProviderCall}
    {validator : CredentialValidator} {asked : ℚ} {limiter : σ}
    (hphase : w.phase = .asking call validator asked)
    (hserve : serves f.limiter f.now asked call.policy.validatorId call.policy.requestsPerMinute
      true limiter) :
    Kept Holds validatorId
      { f with
        limiter
        workers := before ++ w.cleared call ⟨asked, f.now⟩ :: after
        grants := f.grants ++ [(call.policy.validatorId, ⟨asked, f.now⟩)] } := by
  have hw : w ∈ f.workers := by simp [hworkers]
  refine ⟨?_, ?_, ?_, ?_, fun p => ?_, h.sent⟩
  · rw [grantsOf_append]
    by_cases hcall : call.policy.validatorId = validatorId
    · have hlimit := h.limit_le hwithin hw hphase hcall
      rw [hcall] at hserve ⊢
      rw [grantsOf_same]
      exact hb.grant hserve (h.asking w hw _ _ _ hphase).1 hlimit h.holds
    · rw [grantsOf_other hcall, List.append_nil]
      exact hb.other hserve hcall h.holds
  · exact forall_replaced (hworkers ▸ h.executors) (h.executors w hw)
  · exact forall_replaced (hworkers ▸ h.asking) fun _ _ _ hcleared => by cases hcleared
  · refine forall_replaced (hworkers ▸ h.cleared) fun call' grant hcleared => ?_
    cases hcleared
    exact le_rfl
  · have hused := h.used p
    have hnone : w.held = none := by simp [Worker.held, hphase]
    have hheld : (w.cleared call ⟨asked, f.now⟩).held =
        some (call.policy.validatorId, ⟨asked, f.now⟩) := rfl
    simp only [hworkers, outstanding_append, outstanding_cons, List.countP_append, hnone, hheld,
      Option.toList_none, Option.toList_some, List.countP_nil] at hused ⊢
    omega

theorem Kept.send (h : Kept Holds validatorId f) (hworkers : f.workers = before ++ w :: after)
    {call : ProviderCall} {grant : Permit ℚ} (hphase : w.phase = .cleared call grant) :
    Kept Holds validatorId
      { f with
        workers := before ++ { w with phase := .sent call } :: after
        requests := f.requests ++ [⟨call, grant, f.now⟩] } := by
  have hw : w ∈ f.workers := by simp [hworkers]
  refine ⟨h.holds, ?_, ?_, ?_, fun p => ?_, ?_⟩
  · exact forall_replaced (hworkers ▸ h.executors) (h.executors w hw)
  · exact forall_replaced (hworkers ▸ h.asking) fun _ _ _ hsent => by cases hsent
  · exact forall_replaced (hworkers ▸ h.cleared) fun _ _ hsent => by cases hsent
  · have hused := h.used p
    have hheld : w.held = some (call.policy.validatorId, grant) := by simp [Worker.held, hphase]
    have hnone : ({ w with phase := .sent call } : Worker).held = none := rfl
    simp only [hworkers, outstanding_append, outstanding_cons, List.countP_append, hnone, hheld,
      Option.toList_none, Option.toList_some, List.countP_nil, List.countP_singleton] at hused ⊢
    omega
  · intro r hr
    rcases List.mem_append.1 hr with hr | hr
    · exact h.sent r hr
    · obtain rfl := List.mem_singleton.1 hr
      exact h.cleared w hw call grant hphase

theorem Kept.step (hb : Budget serves validatorId limit width most Holds)
    (h : Kept Holds validatorId f) (hwithin : Within validatorId limit f)
    (hstep : Step serves f f') : Kept Holds validatorId f' := by
  cases hstep with
  | tick hle => exact h.tick hb hle
  | lease => exact h.lease _
  | stop hworkers => exact h.stop hworkers
  | consult hworkers hidle => exact h.consult hworkers hidle ..
  | deny hworkers hphase hserve => exact h.deny hb hwithin hworkers _ hphase hserve
  | grant hworkers hphase hserve => exact h.grant hb hwithin hworkers hphase hserve
  | send hworkers hphase => exact h.send hworkers hphase
  | answer hworkers hphase => exact h.conclude hworkers (by simp [Worker.held, hphase]) ..

theorem kept_start {now : ℚ} (h : Holds limiter now []) :
    Kept Holds validatorId { now, limiter } where
  holds := h
  executors := fun _ hw => by cases hw
  asking := fun _ hw => by cases hw
  cleared := fun _ hw => by cases hw
  used := fun _ => le_rfl
  sent := fun _ hr => by cases hr

theorem Reached.kept (hb : Budget serves validatorId limit width most Holds)
    (hstart : ∀ now, Holds limiter now []) (h : Reached serves limiter f)
    (hwithin : Within validatorId limit f) : Kept Holds validatorId f := by
  induction h with
  | @start now => exact kept_start (hstart now)
  | step _ hstep ih =>
      have hbefore := fun x hx => hwithin x (hstep.leased_subset hx)
      exact (ih hbefore).step hb hbefore hstep

/-- Requests that are asked for and sent within an interval shorter than the window. -/
theorem Kept.paced (hb : Budget serves validatorId limit width most Holds)
    (h : Kept Holds validatorId f) {a b : ℚ} (hshort : b < a + width) :
    f.requests.countP (fun r => r.call.policy.validatorId = validatorId && a ≤ r.grant.asked &&
      r.sent ≤ b) ≤ most := by
  have hgrants := hb.paced h.holds a b hshort
  rw [countP_grantsOf] at hgrants
  have hused := h.used fun g => g.1 = validatorId && g.2.within a b
  have hmono : f.requests.countP (fun r => r.call.policy.validatorId = validatorId &&
      a ≤ r.grant.asked && r.sent ≤ b) ≤
      f.requests.countP fun r => (decide (r.call.policy.validatorId = validatorId)) &&
        r.grant.within a b := by
    refine List.countP_mono_left fun r hr hin => ?_
    simp only [Permit.within, Bool.and_eq_true, decide_eq_true_eq] at hin ⊢
    exact ⟨hin.1.1, hin.1.2, (h.sent r hr).trans hin.2⟩
  exact hmono.trans (((Nat.le_add_right _ _).trans hused).trans hgrants)

theorem MinuteLimiter.serves_iff {s s' : MinuteLimiter} {now read : ℚ} {validatorId : String}
    {limit : ℤ} {granted : Bool} :
    MinuteLimiter.Serves s now read validatorId limit granted s' ↔
      granted = (RateWindow.acquire 60 read limit (s.attempts validatorId)).1 ∧
        s' = ⟨Function.update s.attempts validatorId
          (RateWindow.acquire 60 read limit (s.attempts validatorId)).2⟩ := by
  simp only [MinuteLimiter.Serves, MinuteLimiter.acquire, Prod.mk.injEq, eq_comm]

theorem MinuteLimiter.budget (validatorId : String) (limit : ℕ) :
    Budget MinuteLimiter.Serves validatorId limit 60 limit
      fun s now grants => SlidingLog 60 limit now (s.attempts validatorId) grants := by
  refine ⟨fun h hle => h.later hle, ?_, ?_, ?_, fun h => h.paced⟩
  · intro s s' now asked v l granted grants hserve hne h
    obtain ⟨-, rfl⟩ := serves_iff.1 hserve
    simpa only [Function.update_of_ne (Ne.symm hne)] using h
  · intro s s' now asked l grants hserve hasked hlimit h
    obtain ⟨hno, rfl⟩ := serves_iff.1 hserve
    have hnext := h.acquire le_rfl hasked hlimit
    rw [← hno, if_neg Bool.false_ne_true] at hnext
    simpa only [Function.update_self] using hnext
  · intro s s' now asked l grants hserve hasked hlimit h
    obtain ⟨hyes, rfl⟩ := serves_iff.1 hserve
    have hnext := h.acquire le_rfl hasked hlimit
    rw [← hyes, if_pos rfl] at hnext
    simpa only [Function.update_self] using hnext

theorem append_injective (start : String) : Function.Injective fun v => start ++ v := by
  intro v v' h
  have hlist := congrArg String.toList h
  simp only [String.toList_append] at hlist
  exact String.toList_injective (List.append_cancel_left hlist)

theorem redisKey_injective : Function.Injective redisKey := append_injective _

/-- What one call does to the counters: nothing, or it uses the counter of its validator. -/
theorem RedisCounters.acquire_cases {isalnum : Char → Bool} {s s' : RedisCounters} {now : ℚ}
    {validatorId : String} {limit : ℤ} {fate : ScriptFate} {granted : Bool}
    (h : s.acquire isalnum now validatorId limit fate = (granted, s')) :
    (granted = false ∧ s' = s) ∨
      s'.counters = Function.update s.counters (redisKey validatorId)
          (some (incr 61 now (s.counters (redisKey validatorId)))) ∧
        (granted → ((incr 61 now (s.counters (redisKey validatorId))).count : ℤ) ≤ limit) := by
  unfold RedisCounters.acquire at h
  split_ifs at h
  · cases fate with
    | unreachable =>
        cases h
        exact Or.inl ⟨rfl, rfl⟩
    | lost =>
        cases h
        exact Or.inr ⟨rfl, nofun⟩
    | replied =>
        cases h
        exact Or.inr ⟨rfl, of_decide_eq_true⟩
  · cases h
    exact Or.inl ⟨rfl, rfl⟩

theorem RedisCounters.budget (isalnum : Char → Bool) (validatorId : String) (limit : ℕ) :
    Budget (RedisCounters.Serves isalnum) validatorId limit 61 (2 * limit)
      fun s now grants =>
        LapsingCounter 61 limit now (s.counters (redisKey validatorId)) grants where
  later := fun h hle => h.later hle
  other := fun ⟨_, hserve⟩ hne h => by
    obtain ⟨-, rfl⟩ | ⟨hcounters, -⟩ := RedisCounters.acquire_cases hserve
    · exact h
    · have hkey := redisKey_injective.ne (Ne.symm hne)
      simpa only [hcounters, Function.update_of_ne hkey] using h
  deny := fun ⟨_, hserve⟩ _ _ h => by
    obtain ⟨-, rfl⟩ | ⟨hcounters, -⟩ := RedisCounters.acquire_cases hserve
    · exact h
    · simpa only [hcounters, Function.update_self] using h.refused le_rfl (by norm_num)
  grant := fun ⟨_, hserve⟩ hasked hlimit h => by
    obtain ⟨hno, -⟩ | ⟨hcounters, hcount⟩ := RedisCounters.acquire_cases hserve
    · cases hno
    · have hroom := (hcount rfl).trans hlimit
      simpa only [hcounters, Function.update_self] using
        h.granted le_rfl hasked (by norm_num) (by exact_mod_cast hroom)
  paced := fun h => h.paced

theorem exists_within (f : Fleet σ) : ∃ limit, ∀ validatorId, Within validatorId limit f := by
  refine ⟨(f.leased.flatMap fun x => x.policies.map fun p => p.1.requestsPerMinute.toNat).sum,
    fun validatorId x hx p hp _ => ?_⟩
  have hmem : p.1.requestsPerMinute.toNat ∈
      f.leased.flatMap fun x => x.policies.map fun p => p.1.requestsPerMinute.toNat :=
    List.mem_flatMap.2 ⟨x, hx, List.mem_map_of_mem hp⟩
  have hle := List.single_le_sum (fun _ _ => Nat.zero_le _) _ hmem
  omega

/-- A refusal of the process's log had its limit of grants made within the minute before the
clock was read. -/
def Spent (f : Fleet MinuteLimiter) : Prop :=
  ∀ r ∈ f.refusals,
    r.limit ≤ (grantsOf r.validatorId f.grants).countP fun g => r.asked - 60 < g.made

theorem Spent.more {f f' : Fleet MinuteLimiter} (h : Spent f) (more : List (String × Permit ℚ))
    (hgrants : f'.grants = f.grants ++ more) (hrefusals : f'.refusals = f.refusals) :
    Spent f' := by
  intro r hr
  rw [hrefusals] at hr
  have hold := h r hr
  rw [hgrants, grantsOf_append, List.countP_append]
  push_cast
  omega

theorem Reached.spent {s : MinuteLimiter} {f : Fleet MinuteLimiter}
    (hempty : ∀ v, s.attempts v = []) (h : Reached MinuteLimiter.Serves s f) : Spent f := by
  induction h with
  | start => exact fun _ hr => by cases hr
  | @step f f' hf hstep ih =>
      cases hstep with
      | @deny _ _ w call validator asked limiter hworkers hphase hserve =>
          obtain ⟨limit, hwithin⟩ := exists_within f
          have hkept := hf.kept (MinuteLimiter.budget call.policy.validatorId limit)
            (fun now => by simpa only [hempty] using SlidingLog.nil) (hwithin _)
          have hasked := (hkept.asking w (by simp [hworkers]) _ _ _ hphase).1
          intro r hr
          rcases List.mem_append.1 hr with hr | hr
          · exact ih r hr
          · obtain rfl := List.mem_singleton.1 hr
            exact hkept.holds.refused le_rfl hasked (MinuteLimiter.serves_iff.1 hserve).1.symm
      | grant => exact ih.more _ rfl rfl
      | _ => exact ih.more [] (List.append_nil _).symm rfl

/-- The budget of a process. However its tasks interleave, a provider is sent no more than the
limit of requests in any interval shorter than a minute, counting those that are asked for and
sent within it; and a request is refused only when the limit was granted later than a minute
before it read the clock. -/
theorem minute_budget {f : Fleet MinuteLimiter} (h : Reached MinuteLimiter.Serves {} f)
    (validatorId : String) (limit : ℕ) (hwithin : Within validatorId limit f) :
    (∀ a b, b < a + 60 →
        f.requests.countP (fun r => r.call.policy.validatorId = validatorId &&
          a ≤ r.grant.asked && r.sent ≤ b) ≤ limit) ∧
      ∀ r ∈ f.refusals,
        r.limit ≤ (grantsOf r.validatorId f.grants).countP fun g => r.asked - 60 < g.made := by
  have hb := MinuteLimiter.budget validatorId limit
  exact ⟨fun a b hshort => (h.kept hb (fun _ => SlidingLog.nil) hwithin).paced hb hshort,
    h.spent fun _ => rfl⟩

def githubValidator : CredentialValidator where
  validatorId := "github-token-v1"
  provider := "github"
  contractVersion := "1"
  supportedRuleIds := ["github-token", "github-fine-grained-pat"]

def slowPolicy : ValidationPolicy where
  policyId := "policy"
  ruleId := "github-token"
  validatorId := "github-token-v1"
  timeoutSeconds := 5
  requestsPerMinute := 1
  maxAttemptsPerTask := 10

def githubRegistry : Registry := fun id => if id = "github-token-v1" then githubValidator else none

theorem slowPolicy_accepted : slowPolicy.Accepted githubRegistry :=
  ⟨⟨githubValidator, rfl, by simp [githubValidator, slowPolicy]⟩, by norm_num [slowPolicy],
    by norm_num [slowPolicy], by norm_num [slowPolicy]⟩

def slowExecutor : ValidationExecutor := ⟨githubRegistry, [⟨slowPolicy, slowPolicy_accepted⟩]⟩

def slowWorker : Worker := { executor := slowExecutor }

def slowCall (secretHash secret : String) : ProviderCall := ⟨slowPolicy, secretHash, secret⟩

def slowAsking (secretHash secret : String) : Worker :=
  { slowWorker with phase := .asking (slowCall secretHash secret) githubValidator 0 }

def twoAsking (limiter : σ) : Fleet σ where
  now := 0
  limiter
  workers := [slowAsking "a" "A", slowAsking "b" "B"]
  leased := [slowExecutor, slowExecutor]

theorem twoAsking_reached (serves : Serves σ) (limiter : σ) :
    Reached serves limiter (twoAsking limiter) := by
  have hleased : Reached serves limiter
      { now := 0, limiter, workers := [slowWorker, slowWorker],
        leased := [slowExecutor, slowExecutor] } :=
    (Reached.start.step .lease).step .lease
  exact (hleased.step (@Step.consult _ _ _ [] _ slowWorker "github-token" "a" "A" rfl rfl)).step
    (@Step.consult _ _ _ [_] [] slowWorker "github-token" "b" "B" rfl rfl)

theorem within_of_slow {f : Fleet σ} (h : f.leased = [slowExecutor, slowExecutor]) :
    Within "github-token-v1" 1 f := by
  intro x hx p hp _
  obtain rfl : x = slowExecutor := by simpa [h] using hx
  rw [List.mem_singleton.1 hp]
  exact le_rfl

/-- One token is sent, the other is refused. -/
theorem two_tasks_minute_budget : ∃ f : Fleet MinuteLimiter, f.requests.length = 1 ∧
    f.refusals.length = 1 ∧ f.requests.countP (fun r =>
      r.call.policy.validatorId = "github-token-v1" && (0 : ℚ) ≤ r.grant.asked &&
        r.sent ≤ (59 : ℚ)) ≤ 1 := by
  have hgranted := (twoAsking_reached MinuteLimiter.Serves {}).step
    (@Step.grant _ _ _ [] _ _ (slowCall "a" "A") githubValidator 0 _ rfl rfl
      (MinuteLimiter.serves_iff.2 ⟨rfl, rfl⟩))
  have hfull : (acquire 60 (0 : ℚ) 1 [0]).1 = false := by norm_num [acquire, expire]
  have hdenied := hgranted.step (@Step.deny _ _ _ [_] [] _ (slowCall "b" "B") githubValidator 0 _
    rfl rfl (MinuteLimiter.serves_iff.2 ⟨hfull.symm, rfl⟩))
  have hsent := hdenied.step (@Step.send _ _ _ [] _ _ (slowCall "a" "A") ⟨0, 0⟩ rfl rfl)
  exact ⟨_, rfl, rfl,
    (minute_budget hsent "github-token-v1" 1 (within_of_slow rfl)).1 0 59 (by norm_num)⟩

/-- The budget that the engines share. However their tasks interleave, and whichever calls to
the server fail or lose their reply, a provider is sent no more than twice the limit of
requests in any interval shorter than the life of a counter, counting as above. -/
theorem fleet_budget {isalnum : Char → Bool} {f : Fleet RedisCounters}
    (h : Reached (RedisCounters.Serves isalnum) {} f) (validatorId : String) (limit : ℕ)
    (hwithin : Within validatorId limit f) (a b : ℚ) (hshort : b < a + 61) :
    f.requests.countP (fun r => r.call.policy.validatorId = validatorId &&
      a ≤ r.grant.asked && r.sent ≤ b) ≤ 2 * limit := by
  have hb := RedisCounters.budget isalnum validatorId limit
  exact (h.kept hb (fun _ => LapsingCounter.nil) hwithin).paced hb hshort

/-- One token is sent; the reply for the other is lost, and it is refused. -/
theorem two_tasks_fleet_budget : ∃ f : Fleet RedisCounters, f.requests.length = 1 ∧
    f.refusals.length = 1 ∧ f.requests.countP (fun r =>
      r.call.policy.validatorId = "github-token-v1" && (0 : ℚ) ≤ r.grant.asked &&
        r.sent ≤ (60 : ℚ)) ≤ 2 * 1 := by
  have hgranted := (twoAsking_reached (RedisCounters.Serves Char.isAlphanum) {}).step
    (@Step.grant _ _ _ [] _ _ (slowCall "a" "A") githubValidator 0 _ rfl rfl ⟨.replied, rfl⟩)
  have hdenied := hgranted.step (@Step.deny _ _ _ [_] [] _ (slowCall "b" "B") githubValidator 0 _
    rfl rfl ⟨.lost, rfl⟩)
  have hsent := hdenied.step (@Step.send _ _ _ [] _ _ (slowCall "a" "A") ⟨0, 0⟩ rfl rfl)
  exact ⟨_, rfl, rfl,
    fleet_budget hsent "github-token-v1" 1 (within_of_slow rfl) 0 60 (by norm_num)⟩

end Fleet

end IcebergSST.Validation
