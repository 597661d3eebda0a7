import IcebergSST.Delivery

/-!
# Validating detected credentials

The executor of a task asks a provider about the candidates of each slice that is
prepared. A slice may be prepared again after its batch was refused, so the same candidates
can come more than once. `World` is what the limiter grants and the provider answers, for
each candidate in turn.
-/

namespace IcebergSST.Validation

structure ValidationOutcome where
  provider : String
  validatorId : String
  contractVersion : String
  status : String
  reason : String
  deriving DecidableEq, Repr

structure ValidationPolicy where
  policyId : String
  ruleId : String
  validatorId : String
  timeoutSeconds : ℚ
  requestsPerMinute : ℤ
  maxAttemptsPerTask : ℤ
  deriving DecidableEq, Repr

/-- What a field of a payload can hold, as far as its decoding looks at it. -/
inductive PayloadNumber
  | int (n : ℤ)
  | float (q : ℚ)
  | notNumeric
  deriving DecidableEq, Repr

/-- A policy as it is on the lease; `none` is a missing key. -/
structure PolicyPayload where
  policyId : Option String
  ruleId : Option String
  validatorId : Option String
  timeoutSeconds : Option PayloadNumber
  requestsPerMinute : Option PayloadNumber
  maxAttemptsPerTask : Option PayloadNumber
  deriving DecidableEq, Repr

def PayloadNumber.numeric : PayloadNumber → Option ℚ
  | .int n => some n
  | .float q => some q
  | .notNumeric => none

def PayloadNumber.integer : PayloadNumber → Option ℤ
  | .int n => some n
  | .float _ | .notNumeric => none

/-- `none` is a `KeyError` or a `TypeError`. -/
def ValidationPolicy.fromPayload (payload : PolicyPayload) : Option ValidationPolicy := do
  let timeoutSeconds ← (← payload.timeoutSeconds).numeric
  let requestsPerMinute ← (← payload.requestsPerMinute).integer
  let maxAttemptsPerTask ← (← payload.maxAttemptsPerTask).integer
  let policyId ← payload.policyId
  let ruleId ← payload.ruleId
  let validatorId ← payload.validatorId
  return { policyId, ruleId, validatorId, timeoutSeconds, requestsPerMinute, maxAttemptsPerTask }

structure CredentialValidator where
  validatorId : String
  provider : String
  contractVersion : String
  supportedRuleIds : List String
  deriving DecidableEq, Repr

abbrev Registry := String → Option CredentialValidator

/-- What `from_payloads` lets through. -/
structure ValidationPolicy.Accepted (registry : Registry) (p : ValidationPolicy) : Prop where
  supported : ∃ v, registry p.validatorId = some v ∧ p.ruleId ∈ v.supportedRuleIds
  timeout : 0 < p.timeoutSeconds
  requests : 0 < p.requestsPerMinute
  attempts : 0 < p.maxAttemptsPerTask

def ValidationPolicy.accepted (registry : Registry) (p : ValidationPolicy) : Bool :=
  (registry p.validatorId).any (fun v => p.ruleId ∈ v.supportedRuleIds) &&
    0 < p.timeoutSeconds && 0 < p.requestsPerMinute && 0 < p.maxAttemptsPerTask

structure ValidationExecutor where
  registry : Registry
  policies : List {p : ValidationPolicy // p.Accepted registry}

structure ProviderCall where
  policy : ValidationPolicy
  secretHash : String
  secret : String
  deriving DecidableEq, Repr

/-- What the limiter and the provider say to one candidate, if they are asked. -/
structure World where
  granted : Bool
  answer : ValidationOutcome

/-- `asked` counts the validations so far; no code reads it. -/
structure ExecutorState where
  attempts : String → ℤ := fun _ => 0
  cache : String × String → Option ValidationOutcome := fun _ => none
  asked : ℕ := 0

def blocked (v : CredentialValidator) : ValidationOutcome where
  provider := v.provider
  validatorId := v.validatorId
  contractVersion := v.contractVersion
  status := "blocked"
  reason := "policy_budget_exhausted"

structure Validated where
  outcome : Option ValidationOutcome
  call : Option ProviderCall := none
  deriving DecidableEq, Repr

namespace ValidationExecutor

variable (x : ValidationExecutor)

def policyFor (ruleId : String) : Option {p : ValidationPolicy // p.Accepted x.registry} :=
  x.policies.find? fun p => p.1.ruleId = ruleId

def remember (st : ExecutorState) (key : String × String) (outcome : ValidationOutcome) :
    ExecutorState :=
  { st with cache := Function.update st.cache key (some outcome), asked := st.asked + 1 }

def spend (st : ExecutorState) (policyId : String) : ExecutorState :=
  { st with attempts := Function.update st.attempts policyId (st.attempts policyId + 1) }

def validate (world : ℕ → World) (st : ExecutorState) (ruleId secretHash secret : String) :
    ExecutorState × Validated :=
  match x.policyFor ruleId with
  | none => ({ st with asked := st.asked + 1 }, { outcome := none })
  | some policy =>
      match x.registry policy.1.validatorId with
      | none => ({ st with asked := st.asked + 1 }, { outcome := none })
      | some validator =>
          let key := (policy.1.validatorId, secretHash)
          match st.cache key with
          | some cached => ({ st with asked := st.asked + 1 }, { outcome := some cached })
          | none =>
              if policy.1.maxAttemptsPerTask ≤ st.attempts policy.1.policyId then
                (remember st key (blocked validator), { outcome := some (blocked validator) })
              else if !(world st.asked).granted then
                (remember st key (blocked validator), { outcome := some (blocked validator) })
              else
                (remember (spend st policy.1.policyId) key (world st.asked).answer,
                  { outcome := some (world st.asked).answer
                    call := some { policy := policy.1, secretHash, secret } })

end ValidationExecutor

/-- What an attempt does, in its order: it prepares a slice of its candidates, or it finds
the task cancelled. -/
inductive Prep (κ : Type)
  | slice (candidates : List κ)
  | observed

inductive ValidationEvent (κ : Type)
  | validated (candidate : κ) (v : Validated)
  | observed

def ValidationEvent.call {κ : Type} : ValidationEvent κ → Option ProviderCall
  | .validated _ v => v.call
  | .observed => none

section Attempt

variable {κ : Type} (x : ValidationExecutor) (world : ℕ → World) (suppresses : κ → Bool)
  (rule secret : κ → String) (hash : String → String)

def validateEach (st : ExecutorState) : List κ → ExecutorState × List (κ × Validated)
  | [] => (st, [])
  | c :: cs =>
      let v := x.validate world st (rule c) (hash (secret c)) (secret c)
      let rest := validateEach v.1 cs
      (rest.1, (c, v.2) :: rest.2)

/-- Pre-filter and validate one slice; what the filter drops is not validated. -/
def prepare (validate : Bool) (st : ExecutorState) (candidates : List κ) :
    ExecutorState × List (κ × Validated) :=
  if validate then
    validateEach x world rule secret hash st (candidates.filter fun c => !suppresses c)
  else (st, [])

/-- After a cancellation nothing is validated any more. -/
def attempt : Bool → ExecutorState → List (Prep κ) → List (ValidationEvent κ)
  | _, _, [] => []
  | _, st, .observed :: preps => .observed :: attempt true st preps
  | cancelled, st, .slice candidates :: preps =>
      let prepared := prepare x world suppresses rule secret hash (!cancelled) st candidates
      prepared.2.map (fun cv => .validated cv.1 cv.2) ++ attempt cancelled prepared.1 preps

end Attempt

namespace ValidationExecutor

variable {x : ValidationExecutor} {world : ℕ → World} {st st' : ExecutorState} {v : Validated}
  {ruleId secretHash secret : String}

/-- Everything one validation can come to: there is no policy; the answer is known; the
budget is spent or the limiter denies; or the provider is asked. -/
theorem validate_cases (h : x.validate world st ruleId secretHash secret = (st', v)) :
    (x.policyFor ruleId = none ∧ v = { outcome := none } ∧
        st'.attempts = st.attempts ∧ st'.cache = st.cache) ∨
      ∃ p, x.policyFor ruleId = some p ∧
        ((∃ o, st.cache (p.1.validatorId, secretHash) = some o ∧ v = { outcome := some o } ∧
            st'.attempts = st.attempts ∧ st'.cache = st.cache) ∨
          st.cache (p.1.validatorId, secretHash) = none ∧
            ∃ o, st'.cache = Function.update st.cache (p.1.validatorId, secretHash) (some o) ∧
              (v = { outcome := some o } ∧ st'.attempts = st.attempts ∨
                v = { outcome := some o
                      call := some { policy := p.1, secretHash, secret } } ∧
                  st.attempts p.1.policyId < p.1.maxAttemptsPerTask ∧
                  st'.attempts = Function.update st.attempts p.1.policyId
                    (st.attempts p.1.policyId + 1))) := by
  unfold validate at h
  split at h
  · obtain ⟨rfl, rfl⟩ := Prod.mk.inj h
    exact Or.inl ⟨‹_›, rfl, rfl, rfl⟩
  · rename_i p hpolicy
    refine Or.inr ⟨p, hpolicy, ?_⟩
    obtain ⟨validator, hvalidator, -⟩ := p.2.supported
    simp only [hvalidator] at h
    split at h
    · obtain ⟨rfl, rfl⟩ := Prod.mk.inj h
      exact Or.inl ⟨_, ‹_›, rfl, rfl, rfl⟩
    · refine Or.inr ⟨‹_›, ?_⟩
      split_ifs at h with hspent hgranted
      · obtain ⟨rfl, rfl⟩ := Prod.mk.inj h
        exact ⟨_, rfl, Or.inl ⟨rfl, rfl⟩⟩
      · obtain ⟨rfl, rfl⟩ := Prod.mk.inj h
        exact ⟨_, rfl, Or.inl ⟨rfl, rfl⟩⟩
      · obtain ⟨rfl, rfl⟩ := Prod.mk.inj h
        exact ⟨_, rfl, Or.inr ⟨rfl, not_le.1 hspent, rfl⟩⟩

theorem policyFor_some {p : {p : ValidationPolicy // p.Accepted x.registry}}
    (h : x.policyFor ruleId = some p) : p ∈ x.policies ∧ p.1.ruleId = ruleId :=
  ⟨List.mem_of_find?_eq_some h, by simpa using List.find?_some h⟩

end ValidationExecutor

section Sound

variable {κ : Type} {x : ValidationExecutor} {world : ℕ → World} {suppresses : κ → Bool}
  {rule secret : κ → String} {hash : String → String} {st st' : ExecutorState}
  {past : List (κ × Validated)} {c : κ} {v : Validated}

def callsOf (past : List (κ × Validated)) : List ProviderCall := past.filterMap fun cv => cv.2.call

/-- What was validated so far, as the executor keeps it. -/
structure Sound (x : ValidationExecutor) (rule secret : κ → String) (hash : String → String)
    (st : ExecutorState) (past : List (κ × Validated)) : Prop where
  cached : ∀ call ∈ callsOf past,
    ∃ o, st.cache (call.policy.validatorId, call.secretHash) = some o
  once : ∀ validatorId secretHash, (callsOf past).countP (fun call =>
    call.policy.validatorId = validatorId ∧ call.secretHash = secretHash) ≤ 1
  spent : ∀ p, ((callsOf past).countP fun call => call.policy = p) ≤ st.attempts p.policyId
  budget : ∀ p ∈ x.policies,
    ((callsOf past).countP fun call => call.policy = p.1) ≤ p.1.maxAttemptsPerTask
  asked : ∀ cv ∈ past, ∀ call ∈ cv.2.call,
    (∃ p ∈ x.policies, call.policy = p.1 ∧ p.1.ruleId = rule cv.1) ∧
      call.secretHash = hash (secret cv.1) ∧ call.secret = secret cv.1
  unknown : ∀ cv ∈ past, x.policyFor (rule cv.1) = none → cv.2.outcome = none
  known : ∀ cv ∈ past, ∀ p, x.policyFor (rule cv.1) = some p →
    ∃ o, cv.2.outcome = some o ∧ st.cache (p.1.validatorId, hash (secret cv.1)) = some o

theorem sound_start : Sound x rule secret hash {} ([] : List (κ × Validated)) where
  cached := fun _ hc => by cases hc
  once := fun _ _ => by simp [callsOf]
  spent := fun _ => by simp [callsOf]
  budget := fun p _ => by simpa [callsOf] using p.2.attempts.le
  asked := fun _ hc => by cases hc
  unknown := fun _ hc => by cases hc
  known := fun _ hc => by cases hc

theorem callsOf_snoc_none (h : v.call = none) : callsOf (past ++ [(c, v)]) = callsOf past := by
  simp [callsOf, h]

theorem callsOf_snoc_some {call : ProviderCall} (past : List (κ × Validated)) (c : κ)
    (h : v.call = some call) : callsOf (past ++ [(c, v)]) = callsOf past ++ [call] := by
  simp [callsOf, h]

theorem Sound.uncalled (hs : Sound x rule secret hash st past) (hcall : v.call = none)
    (hattempts : st'.attempts = st.attempts)
    (hcache : ∀ key o, st.cache key = some o → st'.cache key = some o)
    (hunknown : x.policyFor (rule c) = none → v.outcome = none)
    (hknown : ∀ p, x.policyFor (rule c) = some p →
      ∃ o, v.outcome = some o ∧ st'.cache (p.1.validatorId, hash (secret c)) = some o) :
    Sound x rule secret hash st' (past ++ [(c, v)]) where
  cached := by
    rw [callsOf_snoc_none hcall]
    intro call hc
    obtain ⟨o, ho⟩ := hs.cached call hc
    exact ⟨o, hcache _ o ho⟩
  once := by simpa only [callsOf_snoc_none hcall] using hs.once
  spent := by simpa only [callsOf_snoc_none hcall, hattempts] using hs.spent
  budget := by simpa only [callsOf_snoc_none hcall] using hs.budget
  asked := by
    intro cv hcv call hc
    rcases List.mem_append.1 hcv with hcv | hcv
    · exact hs.asked cv hcv call hc
    · obtain rfl := List.mem_singleton.1 hcv
      rw [hcall] at hc
      cases hc
  unknown := by
    intro cv hcv
    rcases List.mem_append.1 hcv with hcv | hcv
    · exact hs.unknown cv hcv
    · obtain rfl := List.mem_singleton.1 hcv
      exact hunknown
  known := by
    intro cv hcv p hp
    rcases List.mem_append.1 hcv with hcv | hcv
    · obtain ⟨o, ho, hkept⟩ := hs.known cv hcv p hp
      exact ⟨o, ho, hcache _ o hkept⟩
    · obtain rfl := List.mem_singleton.1 hcv
      exact hknown p hp

/-- A credential is sent: its key was not answered before, and its policy has budget left. -/
theorem Sound.called (hs : Sound x rule secret hash st past)
    {p : {p : ValidationPolicy // p.Accepted x.registry}} {o : ValidationOutcome}
    (hp : x.policyFor (rule c) = some p)
    (hfresh : st.cache (p.1.validatorId, hash (secret c)) = none)
    (hbudget : st.attempts p.1.policyId < p.1.maxAttemptsPerTask)
    (hattempts : st'.attempts = Function.update st.attempts p.1.policyId
      (st.attempts p.1.policyId + 1))
    (hcache : st'.cache = Function.update st.cache (p.1.validatorId, hash (secret c)) (some o))
    (hv : v = { outcome := some o
                call :=
                  some { policy := p.1, secretHash := hash (secret c), secret := secret c } }) :
    Sound x rule secret hash st' (past ++ [(c, v)]) := by
  have hcalls := callsOf_snoc_some past c (congrArg Validated.call hv)
  have hkept (key : String × String) (o' : ValidationOutcome) (h : st.cache key = some o') :
      st'.cache key = some o' := by
    have hkey : key ≠ (p.1.validatorId, hash (secret c)) := by
      rintro rfl
      rw [hfresh] at h
      cases h
    rw [hcache, Function.update_of_ne hkey, h]
  have hmore (policyId : String) : st.attempts policyId ≤ st'.attempts policyId := by
    rw [hattempts, Function.update_apply]
    split_ifs with h
    · subst h; omega
    · exact le_rfl
  have hspent : st'.attempts p.1.policyId = st.attempts p.1.policyId + 1 := by
    rw [hattempts, Function.update_self]
  refine ⟨?_, ?_, ?_, ?_, ?_, ?_, ?_⟩
  · intro call hc
    rw [hcalls] at hc
    rcases List.mem_append.1 hc with hc | hc
    · obtain ⟨o', ho'⟩ := hs.cached call hc
      exact ⟨o', hkept _ o' ho'⟩
    · obtain rfl := List.mem_singleton.1 hc
      exact ⟨o, by rw [hcache, Function.update_self]⟩
  · intro validatorId secretHash
    rw [hcalls, List.countP_append, List.countP_singleton]
    split_ifs with hnew
    · -- an earlier call with this key would have left an answer
      simp only [decide_eq_true_eq] at hnew
      obtain ⟨rfl, rfl⟩ := hnew
      have hnone : (callsOf past).countP (fun call => call.policy.validatorId = p.1.validatorId ∧
          call.secretHash = hash (secret c)) = 0 := by
        refine List.countP_eq_zero.2 fun call hc hsame => ?_
        simp only [decide_eq_true_eq] at hsame
        obtain ⟨o', ho'⟩ := hs.cached call hc
        rw [hsame.1, hsame.2, hfresh] at ho'
        cases ho'
      omega
    · exact hs.once validatorId secretHash
  · intro q
    have hpast := hs.spent q
    have hle := hmore q.policyId
    rw [hcalls, List.countP_append, List.countP_singleton]
    split_ifs with hq
    · simp only [decide_eq_true_eq] at hq
      subst hq
      push_cast
      omega
    · push_cast
      omega
  · intro q hq
    have hpast := hs.spent q.1
    have hbound := hs.budget q hq
    rw [hcalls, List.countP_append, List.countP_singleton]
    split_ifs with hsame
    · simp only [decide_eq_true_eq] at hsame
      rw [← hsame] at hpast ⊢
      push_cast
      omega
    · simpa using hbound
  · intro cv hcv call hc
    rcases List.mem_append.1 hcv with hcv | hcv
    · exact hs.asked cv hcv call hc
    · obtain rfl := List.mem_singleton.1 hcv
      obtain rfl : _ = call := Option.some.inj ((congrArg Validated.call hv).symm.trans hc)
      obtain ⟨hmem, hrule⟩ := ValidationExecutor.policyFor_some hp
      exact ⟨⟨p, hmem, rfl, hrule⟩, rfl, rfl⟩
  · intro cv hcv hnone
    rcases List.mem_append.1 hcv with hcv | hcv
    · exact hs.unknown cv hcv hnone
    · obtain rfl := List.mem_singleton.1 hcv
      rw [hp] at hnone
      cases hnone
  · intro cv hcv q hq
    rcases List.mem_append.1 hcv with hcv | hcv
    · obtain ⟨o', ho', hold⟩ := hs.known cv hcv q hq
      exact ⟨o', ho', hkept _ o' hold⟩
    · obtain rfl := List.mem_singleton.1 hcv
      obtain rfl := Option.some.inj (hp.symm.trans hq)
      exact ⟨o, congrArg Validated.outcome hv, by rw [hcache, Function.update_self]⟩

theorem Sound.validate (hs : Sound x rule secret hash st past)
    (h : x.validate world st (rule c) (hash (secret c)) (secret c) = (st', v)) :
    Sound x rule secret hash st' (past ++ [(c, v)]) := by
  rcases ValidationExecutor.validate_cases h with
    ⟨hnone, rfl, hattempts, hcache⟩ | ⟨p, hp, ⟨o, ho, rfl, hattempts, hcache⟩ |
      ⟨hfresh, o, hcache, ⟨rfl, hattempts⟩ | ⟨hv, hbudget, hattempts⟩⟩⟩
  · refine hs.uncalled rfl hattempts (fun _ _ ho => hcache ▸ ho) (fun _ => rfl) ?_
    intro p hp
    rw [hnone] at hp
    cases hp
  · refine hs.uncalled rfl hattempts (fun _ _ ho => hcache ▸ ho) ?_ ?_
    · intro hnone
      rw [hp] at hnone
      cases hnone
    · intro q hq
      obtain rfl := Option.some.inj (hp.symm.trans hq)
      exact ⟨o, rfl, hcache ▸ ho⟩
  · refine hs.uncalled rfl hattempts ?_ ?_ ?_
    · intro key o' ho'
      have hkey : key ≠ (p.1.validatorId, hash (secret c)) := by
        rintro rfl
        rw [hfresh] at ho'
        cases ho'
      rw [hcache, Function.update_of_ne hkey, ho']
    · intro hnone
      rw [hp] at hnone
      cases hnone
    · intro q hq
      obtain rfl := Option.some.inj (hp.symm.trans hq)
      exact ⟨o, rfl, by rw [hcache, Function.update_self]⟩
  · exact hs.called hp hfresh hbudget hattempts hcache hv

theorem Sound.validateEach (hs : Sound x rule secret hash st past) (cs : List κ) :
    Sound x rule secret hash (validateEach x world rule secret hash st cs).1
      (past ++ (validateEach x world rule secret hash st cs).2) := by
  induction cs generalizing st past with
  | nil => simpa [Validation.validateEach] using hs
  | cons c cs ih =>
      have hone := hs.validate (c := c) (Eq.refl (x.validate world st (rule c) (hash (secret c))
        (secret c)))
      have hstep := ih hone
      rwa [List.append_assoc] at hstep

theorem Sound.prepare (hs : Sound x rule secret hash st past) (world : ℕ → World)
    (suppresses : κ → Bool) (validate : Bool) (cs : List κ) :
    Sound x rule secret hash (prepare x world suppresses rule secret hash validate st cs).1
      (past ++ (prepare x world suppresses rule secret hash validate st cs).2) := by
  cases validate with
  | false => simpa [Validation.prepare] using hs
  | true => exact hs.validateEach _

end Sound

section Attempt

variable {κ χ ρ β : Type} {x : ValidationExecutor} {world : ℕ → World} {suppresses : κ → Bool}
  {rule secret : κ → String} {hash : String → String} {st : ExecutorState}
  {past : List (κ × Validated)}

def validations (trace : List (ValidationEvent κ)) : List (κ × Validated) :=
  trace.filterMap fun
    | .validated c v => some (c, v)
    | .observed => none

@[simp] theorem validations_append (trace trace' : List (ValidationEvent κ)) :
    validations (trace ++ trace') = validations trace ++ validations trace' :=
  List.filterMap_append

@[simp] theorem validations_map (l : List (κ × Validated)) :
    validations (l.map fun cv => .validated cv.1 cv.2) = l := by
  simp [validations]

theorem Sound.attempt (hs : Sound x rule secret hash st past) (world : ℕ → World)
    (suppresses : κ → Bool) (cancelled : Bool) (preps : List (Prep κ)) :
    ∃ st', Sound x rule secret hash st'
      (past ++ validations (attempt x world suppresses rule secret hash cancelled st preps)) := by
  induction preps generalizing st past cancelled with
  | nil => exact ⟨st, by simpa [Validation.attempt, validations] using hs⟩
  | cons prep preps ih =>
      cases prep with
      | observed =>
          obtain ⟨st', hs'⟩ := ih hs true
          exact ⟨st', by simpa [Validation.attempt, validations] using hs'⟩
      | slice candidates =>
          obtain ⟨st', hs'⟩ := ih (hs.prepare world suppresses (!cancelled) candidates) cancelled
          refine ⟨st', ?_⟩
          simpa only [Validation.attempt, validations_append, validations_map,
            List.append_assoc] using hs'

/-- A policy of the lease that lets a rule's candidates reach a provider: the pack binds the
rule to its validator, and the validator supports the rule. -/
structure Eligible (registry : Registry) (bindings : String → Option String)
    (payloads : List PolicyPayload) (ruleId : String) (p : ValidationPolicy) : Prop where
  leased : ∃ payload ∈ payloads, ValidationPolicy.fromPayload payload = some p
  bound : bindings ruleId = some p.validatorId
  rule : p.ruleId = ruleId
  accepted : p.Accepted registry

end Attempt

section Loop

variable {κ β χ ρ : Type} [DecidableEq χ] {lease : Lease κ β χ} {f : Fetch κ β χ ρ}
  {api : ApiState κ χ ρ}

/-- What a yield prepares: nothing unless a flush is due, and nothing for a batch that is
delivered again as it was. -/
def flushed (f : Fetch κ β χ ρ) (t : Tick) : List (Prep κ) :=
  match f.batcher, f.outcome.checkpoint with
  | some b, some published =>
      match b.due (some published) t.now, b.inFlight, b.pending with
      | true, none, some pending =>
          [.slice ((f.candidates.take pending.candidates).drop b.sentCandidates)]
      | _, _, _ => []
  | _, _ => []

def stepPreps (e : ConnectorEvent κ β χ ρ) (t : Tick) (f : Fetch κ β χ ρ) : List (Prep κ) :=
  if f.exit.isSome then []
  else
    match e with
    | .yield _ => if t.cancelled then [.observed] else flushed f t
    | _ => []

/-- Every slice that a run of the loop prepares, the one of the `finally` block last. -/
def preps (lease : Lease κ β χ) : List (ConnectorEvent κ β χ ρ × Tick) → Fetch κ β χ ρ →
    ApiState κ χ ρ → List (Prep κ)
  | [], f, _ => [.slice (f.candidates.drop f.sentCandidates)]
  | (e, t) :: steps, f, api =>
      let moved := f.step lease e t api
      stepPreps e t f ++ preps lease steps moved.1 moved.2

def leave (lease : Lease κ β χ) : List (ConnectorEvent κ β χ ρ × Tick) → Fetch κ β χ ρ →
    ApiState κ χ ρ → Option Exit
  | [], f, _ => f.exit
  | (e, t) :: steps, f, api =>
      let moved := f.step lease e t api
      leave lease steps moved.1 moved.2

theorem observed_notMem_flushed (t : Tick) : Prep.observed ∉ flushed f t := by
  unfold flushed
  repeat' split
  all_goals simp

/-- The batch composed at a flush carries what the filter leaves of the slice. -/
theorem load_of_flushed {t : Tick} {slice : List κ} (h : .slice slice ∈ flushed f t) :
    ∃ b published batch, f.batcher = some b ∧ f.outcome.checkpoint = some published ∧
      (Fetch.load lease b published f.candidates).inFlight = some batch ∧
        batch.payload.findings = slice.filter fun c => !lease.suppresses c := by
  unfold flushed at h
  split at h
  · rename_i b published hbatcher hpublished
    split at h
    · rename_i pending _ hidle hpending
      obtain rfl := Prep.slice.inj (List.mem_singleton.1 h)
      have hloaded := congrArg Batcher.inFlight (Fetch.load.eq_1 lease b published f.candidates)
      simp only [hidle, hpending] at hloaded
      exact ⟨b, published, _, hbatcher, hpublished, hloaded, rfl⟩
    · cases h
  · cases h

omit [DecidableEq χ] in
theorem inspect_exit_ne_cancelled (hexit : f.exit = none) (u : ContentUnit κ β) :
    (f.inspect u).exit ≠ some .cancelled := by
  unfold Fetch.inspect
  dsimp only
  split
  · exact fun h => by cases h
  · simp [hexit]

theorem observed_mem_stepPreps {e : ConnectorEvent κ β χ ρ} {t : Tick} (hexit : f.exit = none) :
    Prep.observed ∈ stepPreps e t f ↔ (f.step lease e t api).1.exit = some .cancelled := by
  unfold stepPreps Fetch.step
  simp only [hexit, Option.isSome_none, Bool.false_eq_true, if_false]
  cases e with
  | yield u =>
      by_cases hcancel : t.cancelled
      · simp [hcancel]
      · have hflushed : (f.beforeUnit lease t api).1.exit = none := by
          rw [Fetch.beforeUnit_eq]
          exact hexit
        simp only [hcancel, Bool.false_eq_true, if_false, observed_notMem_flushed, false_iff]
        exact inspect_exit_ne_cancelled hflushed u
  | _ => simp

theorem preps_of_left (hexit : f.exit.isSome) (steps : List (ConnectorEvent κ β χ ρ × Tick)) :
    Prep.observed ∉ preps lease steps f api ∧ leave lease steps f api = f.exit := by
  induction steps with
  | nil => simp [preps, leave]
  | cons step steps ih => simpa [preps, leave, Fetch.step, stepPreps, hexit] using ih

/-- The attempt sees a cancellation exactly when it is what the loop is left by. -/
theorem observed_mem_preps (hexit : f.exit = none) (steps : List (ConnectorEvent κ β χ ρ × Tick)) :
    Prep.observed ∈ preps lease steps f api ↔ leave lease steps f api = some .cancelled := by
  induction steps generalizing f api with
  | nil => simp [preps, leave, hexit]
  | cons step steps ih =>
      obtain ⟨e, t⟩ := step
      have hstep : Prep.observed ∈ stepPreps e t f ↔
          (f.step lease e t api).1.exit = some .cancelled := observed_mem_stepPreps hexit
      simp only [preps, leave, List.mem_append, hstep]
      by_cases hmoved : (f.step lease e t api).1.exit = none
      · simp only [hmoved, reduceCtorEq, false_or]
        exact ih hmoved
      · obtain ⟨hunseen, hleft⟩ : Prep.observed ∉ preps lease steps (f.step lease e t api).1
            (f.step lease e t api).2 ∧ leave lease steps (f.step lease e t api).1
              (f.step lease e t api).2 = (f.step lease e t api).1.exit :=
          preps_of_left (Option.isSome_iff_ne_none.2 hmoved) steps
        simp only [hunseen, or_false, hleft]

end Loop

end IcebergSST.Validation
