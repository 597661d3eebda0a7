import IcebergSST.Sessions

/-!
# Logging in

A browser is sent to the identity provider with a state, a nonce and a challenge that were
drawn for it; a cookie keeps them, and the verifier, for its return with a code. Among the
browsers some are an attacker's. He reads every code and every state, sends other browsers to
any address he likes, and uses what one of his browsers is given in all of them. He does not
read what an honest browser is given in cookies or in the address it is sent to, plants no
cookie in one, and cannot guess what has not been drawn.

The user of a session in an honest browser was proved to the provider in that browser, on a
login it started. A session in a browser of the attacker's rests on a login of his: he may have
had someone else prove himself on it.
-/

namespace IcebergSST.Identity

structure IdToken where
  sub : String
  email : Option String := none
  name : Option String := none
  preferredUsername : Option String := none
  emailVerified : Bool := false
  nonce : Option ℕ := none
  deriving DecidableEq

/-- A code, and what the provider gives for it: who proved himself in which browser. -/
structure Grant where
  code : ℕ
  browser : ℕ
  nonce : ℕ
  challenge : ℕ
  idToken : IdToken
  deriving DecidableEq

/-- How far the provider minds the challenge. -/
structure Provider where
  challengeOf : ℕ → ℕ
  enforces : Bool

/-- `exchange_code`; the provider puts the nonce of the request into the token. -/
def exchangeCode (provider : Provider) (grants : List Grant) (code codeVerifier : ℕ) :
    Option Grant :=
  grants.find? fun g => g.code = code ∧
    (provider.enforces → g.challenge = provider.challengeOf codeVerifier)

def firstNamed (names : List (Option String)) (otherwise : String) : String :=
  ((names.filterMap id).find? (· ≠ "")).getD otherwise

/-- `verify_id_token`, where signature, issuer, audience and time are right. -/
def verifyIdToken (t : IdToken) (nonce : ℕ) : Option IdentityClaims :=
  if t.nonce ≠ some nonce then none
  else
    some
      { subject := t.sub
        email := t.email.getD ""
        displayName := firstNamed [t.name, t.preferredUsername, t.email] t.sub
        emailVerified := t.emailVerified }

/-- `GET /auth/login`, as it was answered. -/
structure LoginAttempt where
  browser : ℕ
  login : LoginState
  deriving DecidableEq

/-- A callback whose ID token was verified. -/
structure Arrival where
  browser : ℕ
  provisioning : Provisioning
  returnPath : String
  deriving DecidableEq

structure World where
  directory : Directory := {}
  /-- Every value below this one has been drawn. -/
  drawn : ℕ := 0
  attempts : List LoginAttempt := []
  /-- The cookies each browser was ever given. -/
  held : List (ℕ × Token) := []
  grants : List Grant := []
  arrivals : List Arrival := []
  /-- Where browsers were sent after a login. -/
  redirects : List String := []
  /-- The requests that were let through, and as whom. -/
  admitted : List (Request × User) := []

structure LoginSettings where
  bootstrap : BootstrapSettings
  jwt : JwtLibrary
  provider : Provider
  sessionTtlMinutes : ℕ
  /-- The browsers that are not the attacker's. -/
  honest : ℕ → Bool

inductive LoginAction
  | login (browser : ℕ) (next : Option String) (now : ℤ)
  /-- A person proves to the provider who he is. -/
  | authorize (browser nonce challenge : ℕ) (idToken : IdToken)
  | callback (browser : ℕ) (cookie : Token) (code state : ℕ) (now : ℤ)
  | finish (arrival : Arrival) (id : ℕ) (now : ℤ)
  | flash (browser : ℕ) (message : String) (ttl now : ℤ)
  | request (r : Request) (now : ℤ)
  /-- A change of a user that is on its way. -/
  | patch (a : DirectoryAction)

namespace World
variable (c : LoginSettings) (w : World)

/-- A browser sends cookies it was given; the attacker's share theirs. -/
def Sends (browser : ℕ) (t : Token) : Prop :=
  ∃ x ∈ w.held, x.2 = t ∧ (x.1 = browser ∨ (c.honest browser = false ∧ c.honest x.1 = false))

instance (browser : ℕ) (t : Token) : Decidable (w.Sends c browser t) := List.decidableBEx _ _

/-- Nobody takes another's nonce to the provider, nor one that was never drawn; only the
attacker's are known to all. -/
def Knows (browser nonce : ℕ) : Prop :=
  nonce < w.drawn ∧ ∀ a ∈ w.attempts, a.login.nonce = nonce →
    a.browser = browser ∨ c.honest a.browser = false

instance (browser nonce : ℕ) : Decidable (w.Knows c browser nonce) :=
  inferInstanceAs (Decidable (_ ∧ _))

/-- What a page of another site can have a browser present: no token of which only honest
browsers were told. -/
def Guessed (presented : Option ℕ) : Prop :=
  ∀ v ∈ presented, (∃ x ∈ w.held, x.2.payload.csrf = some v) →
    ∃ x ∈ w.held, x.2.payload.csrf = some v ∧ c.honest x.1 = false

def login (browser : ℕ) (next : Option String) (now : ℤ) : World :=
  let state : LoginState :=
    { state := w.drawn, nonce := w.drawn + 1, codeVerifier := w.drawn + 2
      returnPath := safeReturnPath next }
  { w with
    drawn := w.drawn + 3
    attempts := w.attempts ++ [{ browser, login := state }]
    held := w.held ++ [(browser, issueLoginState state now)] }

/-- `GET /auth/callback`, up to the verified token. -/
def callback (browser : ℕ) (cookie : Token) (code state : ℕ) (now : ℤ) : Option World := do
  let login ← readLoginState c.jwt now cookie
  if login.state ≠ state then none
  else
    let g ← exchangeCode c.provider w.grants code login.codeVerifier
    let claims ← verifyIdToken { g.idToken with nonce := some g.nonce } login.nonce
    let directory ← w.directory.step c.bootstrap (.authenticated claims)
    let provisioning : Provisioning := { claims, found := w.directory.subject? claims.subject }
    return { w with
      directory
      arrivals := w.arrivals ++ [{ browser, provisioning, returnPath := login.returnPath }] }

/-- The rest of it: the user, unless he is disabled, and his session. -/
def finish (arrival : Arrival) (id : ℕ) (now : ℤ) : Option World := do
  let p := arrival.provisioning
  let directory ← w.directory.step c.bootstrap (.provision p id now)
  let w := { w with arrivals := w.arrivals.erase arrival, directory }
  match p.found <|> w.directory.subject? p.claims.subject with
  | some u =>
      if u.disabled then some w
      else some { w with
        drawn := w.drawn + 1
        held := w.held ++ [(arrival.browser, issueSession u.id w.drawn c.sessionTtlMinutes now)]
        redirects := w.redirects ++ [arrival.returnPath] }
  | none => none

/-- A request that its route lets through; a `PATCH` of a user starts then. -/
def request (r : Request) (now : ℤ) : Option World := do
  let user ← letIn c.jwt w.directory.users now r
  let w := { w with admitted := w.admitted ++ [(r, user)] }
  match r.update with
  | none => some w
  | some (targetId, changes) =>
      if r.safe ∨ r.minimum ≠ .admin then none
      else
        let directory ← w.directory.step c.bootstrap (.accept user.id targetId changes)
        return { w with directory }

inductive Step (c : LoginSettings) : World → LoginAction → World → Prop
  | login {w browser next now} : Step c w (.login browser next now) (w.login browser next now)
  | authorize {w browser nonce challenge idToken} : w.Knows c browser nonce →
      Step c w (.authorize browser nonce challenge idToken)
        { w with
          drawn := w.drawn + 1
          grants := w.grants ++ [{ code := w.drawn, browser, nonce, challenge, idToken }] }
  | callback {w w' browser cookie code state now} : w.Sends c browser cookie →
      w.callback c browser cookie code state now = some w' →
      Step c w (.callback browser cookie code state now) w'
  | finish {w w' arrival id now} : arrival ∈ w.arrivals → w.finish c arrival id now = some w' →
      Step c w (.finish arrival id now) w'
  | flash {w browser message ttl now} :
      Step c w (.flash browser message ttl now)
        { w with held := w.held ++ [(browser, issueFlash message ttl now)] }
  | request {w w' r now} : w.Sends c r.browser r.token → (r.forged → w.Guessed c r.presented) →
      w.request c r now = some w' → Step c w (.request r now) w'
  | load {w p directory} : w.directory.step c.bootstrap (.load p) = some directory →
      Step c w (.patch (.load p)) { w with directory }
  | commit {w p late directory} : w.directory.step c.bootstrap (.commit p late) = some directory →
      Step c w (.patch (.commit p late)) { w with directory }

inductive Reached (c : LoginSettings) : World → Prop
  | start : Reached c {}
  | step {w w' : World} {a : LoginAction} : Reached c w → Step c w a w' → Reached c w'

/-- Someone has proved to be the subject: in this browser itself, on a login that it started,
if it is honest; else on a login of the attacker's. -/
def Proven (browser : ℕ) (subject : String) : Prop :=
  ∃ g ∈ w.grants, ∃ a ∈ w.attempts, g.idToken.sub = subject ∧ a.login.nonce = g.nonce ∧
    (if c.honest browser then a.browser = browser ∧ g.browser = browser
      else c.honest a.browser = false)

def Vouched (browser : ℕ) (t : Token) : Prop :=
  ∃ u, w.directory.Holds u ∧ t.payload.sub = some u.id ∧ w.Proven c browser u.oidcSubject

structure LetThrough (r : Request) (u : User) : Prop where
  proven : w.Proven c r.browser u.oidcSubject
  enabled : u.disabled = false
  rank : roleRank r.minimum ≤ roleRank u.role
  /-- What another site has a browser ask for changes nothing, unless it is the attacker's. -/
  own : r.forged = true → r.safe = false → c.honest r.browser = false

def AskedFor (p : UserPatch) : Prop :=
  ∃ x ∈ w.admitted, x.2.id = p.admin.id ∧ x.1.update = some (p.targetId, p.changes) ∧
    x.1.safe = false

structure Sound : Prop where
  directory : w.directory.Sound c.bootstrap
  attempts : ∀ a ∈ w.attempts, a.login.nonce < w.drawn
  grants : ∀ g ∈ w.grants, w.Knows c g.browser g.nonce
  logins : ∀ x ∈ w.held, x.2.aud = .login → ∃ a ∈ w.attempts, a.browser = x.1 ∧
    x.2.payload.nonce = some a.login.nonce ∧
    ∃ next, x.2.payload.next = some (safeReturnPath next)
  sessions : ∀ x ∈ w.held, x.2.aud = .session → w.Vouched c x.1 x.2
  csrfDrawn : ∀ x ∈ w.held, ∀ v ∈ x.2.payload.csrf, v < w.drawn
  csrfOwn : ∀ x ∈ w.held, ∀ y ∈ w.held, ∀ v ∈ x.2.payload.csrf, v ∈ y.2.payload.csrf → x.1 = y.1
  arrivals : ∀ x ∈ w.arrivals, w.Proven c x.browser x.provisioning.claims.subject ∧
    staysOnSite x.returnPath = true
  redirects : ∀ location ∈ w.redirects, staysOnSite location = true
  admitted : ∀ x ∈ w.admitted, w.LetThrough c x.1 x.2
  patches : ∀ p ∈ w.directory.patches, w.AskedFor p

variable {c w} {w' : World} {browser : ℕ} {subject : String} {t : Token}

theorem Proven.mono (h : w.Proven c browser subject) (hgrants : w.grants ⊆ w'.grants)
    (hattempts : w.attempts ⊆ w'.attempts) : w'.Proven c browser subject := by
  obtain ⟨g, hg, a, ha, hproof⟩ := h
  exact ⟨g, hgrants hg, a, hattempts ha, hproof⟩

/-- What one of the attacker's browsers has proved, all have. -/
theorem Proven.share {other : ℕ} (h : w.Proven c browser subject)
    (hbrowser : c.honest browser = false) (hother : c.honest other = false) :
    w.Proven c other subject := by
  obtain ⟨g, hg, a, ha, hsub, hnonce, hproof⟩ := h
  refine ⟨g, hg, a, ha, hsub, hnonce, ?_⟩
  simpa [hbrowser, hother] using hproof

theorem Vouched.mono (h : w.Vouched c browser t)
    (hholds : ∀ u, w.directory.Holds u → w'.directory.Holds u) (hgrants : w.grants ⊆ w'.grants)
    (hattempts : w.attempts ⊆ w'.attempts) : w'.Vouched c browser t := by
  obtain ⟨u, hu, hsub, hproven⟩ := h
  exact ⟨u, hholds u hu, hsub, hproven.mono hgrants hattempts⟩

theorem LetThrough.mono {r : Request} {u : User} (h : w.LetThrough c r u)
    (hgrants : w.grants ⊆ w'.grants) (hattempts : w.attempts ⊆ w'.attempts) :
    w'.LetThrough c r u :=
  ⟨h.proven.mono hgrants hattempts, h.enabled, h.rank, h.own⟩

/-- What a browser sends was given to it, or to another of the attacker's. -/
theorem Sends.proven (h : w.Sends c browser t) (hs : w.Sound c) (haud : t.aud = .session) :
    w.Vouched c browser t := by
  obtain ⟨x, hx, rfl, hbrowser⟩ := h
  rcases hbrowser with rfl | ⟨hdishonest, hshared⟩
  · exact hs.sessions x hx haud
  · obtain ⟨u, hu, hsub, hproven⟩ := hs.sessions x hx haud
    exact ⟨u, hu, hsub, hproven.share hshared hdishonest⟩

theorem Knows.later {nonce : ℕ} (h : w.Knows c browser nonce) (hdrawn : w.drawn ≤ w'.drawn)
    (hnew : ∀ a ∈ w'.attempts, a ∈ w.attempts ∨ w.drawn ≤ a.login.nonce) :
    w'.Knows c browser nonce := by
  refine ⟨h.1.trans_le hdrawn, fun a ha hnonce => ?_⟩
  rcases hnew a ha with hold | hfresh
  · exact h.2 a hold hnonce
  · have := h.1
    omega

theorem Sound.hold (h : w.Sound c)
    (hlogin : t.aud = .login → ∃ a ∈ w.attempts, a.browser = browser ∧
      t.payload.nonce = some a.login.nonce ∧ ∃ next, t.payload.next = some (safeReturnPath next))
    (hsession : t.aud ≠ .session) (hcsrf : t.payload.csrf = none) :
    ({ w with held := w.held ++ [(browser, t)] } : World).Sound c := by
  refine ⟨h.directory, h.attempts, h.grants, fun x hx haud => ?_, fun x hx haud => ?_,
    fun x hx v hv => ?_, fun x hx y hy v hv hv' => ?_, h.arrivals, h.redirects,
    fun x hx => (h.admitted x hx).mono (List.Subset.refl _) (List.Subset.refl _), h.patches⟩
  · rcases List.mem_append.1 hx with hx | hx
    · exact h.logins x hx haud
    · rw [List.mem_singleton.1 hx] at haud ⊢
      exact hlogin haud
  · rcases List.mem_append.1 hx with hx | hx
    · exact h.sessions x hx haud
    · rw [List.mem_singleton.1 hx] at haud
      exact absurd haud hsession
  · rcases List.mem_append.1 hx with hx | hx
    · exact h.csrfDrawn x hx v hv
    · rw [List.mem_singleton.1 hx, hcsrf] at hv
      cases hv
  · rcases List.mem_append.1 hx with hx | hx
    · rcases List.mem_append.1 hy with hy | hy
      · exact h.csrfOwn x hx y hy v hv hv'
      · rw [List.mem_singleton.1 hy, hcsrf] at hv'
        cases hv'
    · rw [List.mem_singleton.1 hx, hcsrf] at hv
      cases hv

theorem Sound.grow (h : w.Sound c) (drawn : ℕ) (grants : List Grant)
    (attempts : List LoginAttempt) (hdrawn : w.drawn ≤ drawn) (hgrants : w.grants ⊆ grants)
    (hattempts : w.attempts ⊆ attempts)
    (hgranted : ∀ g ∈ grants, g ∉ w.grants → w.Knows c g.browser g.nonce)
    (hnew : ∀ a ∈ attempts, a ∈ w.attempts ∨ w.drawn ≤ a.login.nonce ∧ a.login.nonce < drawn) :
    ({ w with drawn, grants, attempts } : World).Sound c := by
  refine ⟨h.directory, fun a ha => ?_, fun g hg => ?_, fun x hx haud => ?_, fun x hx haud => ?_,
    fun x hx v hv => ?_, h.csrfOwn, fun x hx => ?_, h.redirects, fun x hx => ?_, h.patches⟩
  · rcases hnew a ha with hold | hfresh
    · exact (h.attempts a hold).trans_le hdrawn
    · exact hfresh.2
  · have hknows : w.Knows c g.browser g.nonce := by
      by_cases hold : g ∈ w.grants
      · exact h.grants g hold
      · exact hgranted g hg hold
    exact hknows.later hdrawn fun a ha => (hnew a ha).imp_right And.left
  · obtain ⟨a, ha, hattempt⟩ := h.logins x hx haud
    exact ⟨a, hattempts ha, hattempt⟩
  · exact (h.sessions x hx haud).mono (fun _ hu => hu) hgrants hattempts
  · exact (h.csrfDrawn x hx v hv).trans_le hdrawn
  · exact ⟨(h.arrivals x hx).1.mono hgrants hattempts, (h.arrivals x hx).2⟩
  · exact (h.admitted x hx).mono hgrants hattempts

theorem Sound.directoryStep (h : w.Sound c) {a : DirectoryAction} {directory : Directory}
    (hstep : w.directory.step c.bootstrap a = some directory)
    (hasked : ∀ p, a = .accept p.admin.id p.targetId p.changes → w.AskedFor p) :
    ({ w with directory } : World).Sound c := by
  refine ⟨h.directory.step hstep, h.attempts, h.grants, h.logins,
    fun x hx haud => (h.sessions x hx haud).mono (fun _ hu => hu.step hstep)
      (List.Subset.refl _) (List.Subset.refl _),
    h.csrfDrawn, h.csrfOwn, h.arrivals, h.redirects,
    fun x hx => (h.admitted x hx).mono (List.Subset.refl _) (List.Subset.refl _), fun p hp => ?_⟩
  rcases Directory.patches_step hstep p hp with ⟨q, hq, hadmin, htarget, hchanges⟩ | haccept
  · obtain ⟨x, hx, hid, hupdate, hsafe⟩ := h.patches q hq
    exact ⟨x, hx, hadmin ▸ hid, htarget ▸ hchanges ▸ hupdate, hsafe⟩
  · exact hasked p haccept

theorem Sound.login (h : w.Sound c) (browser : ℕ) (next : Option String) (now : ℤ) :
    (w.login browser next now).Sound c := by
  let attempt : LoginAttempt :=
    { browser, login := ⟨w.drawn, w.drawn + 1, w.drawn + 2, safeReturnPath next⟩ }
  have hgrown := h.grow (w.drawn + 3) w.grants (w.attempts ++ [attempt]) (by omega)
    (List.Subset.refl _) (List.subset_append_left _ _) (fun g hg hnot => absurd hg hnot)
    (fun a ha => ?_)
  · exact hgrown.hold (fun _ => ⟨_, List.mem_append_right _ (List.mem_singleton_self _), rfl,
      rfl, next, rfl⟩) nofun rfl
  · rcases List.mem_append.1 ha with ha | ha
    · exact .inl ha
    · rw [List.mem_singleton.1 ha]
      exact .inr ⟨by simp [attempt], by simp [attempt]⟩

theorem exchangeCode_mem {provider : Provider} {grants : List Grant} {code codeVerifier : ℕ}
    {g : Grant} (h : exchangeCode provider grants code codeVerifier = some g) : g ∈ grants :=
  List.mem_of_find?_eq_some h

theorem verifyIdToken_spec {t : IdToken} {nonce : ℕ} {claims : IdentityClaims}
    (h : verifyIdToken t nonce = some claims) : t.nonce = some nonce ∧ claims.subject = t.sub := by
  unfold verifyIdToken at h
  split_ifs at h with hnonce
  cases h
  exact ⟨not_not.1 hnonce, rfl⟩

/-- Where a callback goes through, the subject that came back was proved. -/
theorem callback_spec (h : w.Sound c) {cookie : Token} {code state : ℕ} {now : ℤ}
    (hsends : w.Sends c browser cookie)
    (hstep : w.callback c browser cookie code state now = some w') :
    ∃ claims directory returnPath,
      w.directory.step c.bootstrap (.authenticated claims) = some directory ∧
      w.Proven c browser claims.subject ∧ staysOnSite returnPath = true ∧
      w' = { w with
        directory
        arrivals := w.arrivals ++ [{
          browser, returnPath,
          provisioning := { claims, found := w.directory.subject? claims.subject } }] } := by
  obtain ⟨login, hlogin, hrest⟩ := Option.bind_eq_some_iff.1 hstep
  split_ifs at hrest with hstate
  obtain ⟨g, hg, hrest⟩ := Option.bind_eq_some_iff.1 hrest
  obtain ⟨claims, hclaims, hrest⟩ := Option.bind_eq_some_iff.1 hrest
  obtain ⟨directory, hdirectory, hw'⟩ := Option.bind_eq_some_iff.1 hrest
  cases hw'
  obtain ⟨hnonce, hsubject⟩ := verifyIdToken_spec hclaims
  obtain ⟨haud, hpayload, hreturn⟩ := readLoginState_spec hlogin
  obtain ⟨x, hx, rfl, hbrowser⟩ := hsends
  obtain ⟨a, ha, hstarted, hdrawn, next, hnext⟩ := h.logins x hx haud
  have hsame : a.login.nonce = g.nonce := by
    rw [hdrawn] at hpayload
    exact (Option.some.inj hpayload).trans (Option.some.inj hnonce).symm
  refine ⟨claims, directory, login.returnPath, hdirectory, ?_, ?_, rfl⟩
  · refine ⟨g, exchangeCode_mem hg, a, ha, hsubject.symm, hsame, ?_⟩
    rcases (h.grants g (exchangeCode_mem hg)).2 a ha hsame with hgranted | hdishonest
    · rcases hbrowser with rfl | ⟨hbrowser, hshared⟩
      · split_ifs with hhonest
        · exact ⟨hstarted, hgranted.symm.trans hstarted⟩
        · rw [hstarted]
          simpa using hhonest
      · rw [hbrowser, hstarted]
        exact hshared
    · rcases hbrowser with rfl | ⟨hbrowser, -⟩
      · rw [← hstarted, hdishonest]
        rfl
      · rw [hbrowser]
        exact hdishonest
  · rw [hreturn, hnext]
    exact staysOnSite_safeReturnPath next

theorem Sound.callback (h : w.Sound c) {cookie : Token} {code state : ℕ} {now : ℤ}
    (hsends : w.Sends c browser cookie)
    (hstep : w.callback c browser cookie code state now = some w') : w'.Sound c := by
  obtain ⟨claims, directory, returnPath, hdirectory, hproven, hstays, rfl⟩ :=
    callback_spec h hsends hstep
  have hs := h.directoryStep hdirectory fun _ heq => DirectoryAction.noConfusion heq
  refine ⟨hs.directory, hs.attempts, hs.grants, hs.logins, hs.sessions, hs.csrfDrawn, hs.csrfOwn,
    fun x hx => ?_, hs.redirects,
    fun x hx => (hs.admitted x hx).mono (List.Subset.refl _) (List.Subset.refl _), hs.patches⟩
  rcases List.mem_append.1 hx with hx | hx
  · exact hs.arrivals x hx
  · rw [List.mem_singleton.1 hx]
    exact ⟨hproven, hstays⟩

theorem finish_spec (h : w.Sound c) {arrival : Arrival} {id : ℕ} {now : ℤ}
    (hstep : w.finish c arrival id now = some w') :
    ∃ directory, w.directory.step c.bootstrap (.provision arrival.provisioning id now) =
        some directory ∧
      (w' = { w with arrivals := w.arrivals.erase arrival, directory } ∨
        ∃ u, directory.Holds u ∧ u.oidcSubject = arrival.provisioning.claims.subject ∧
          w' = { w with
            arrivals := w.arrivals.erase arrival
            directory
            drawn := w.drawn + 1
            held := w.held ++
              [(arrival.browser, issueSession u.id w.drawn c.sessionTtlMinutes now)]
            redirects := w.redirects ++ [arrival.returnPath] }) := by
  obtain ⟨directory, hdirectory, hrest⟩ := Option.bind_eq_some_iff.1 hstep
  refine ⟨directory, hdirectory, ?_⟩
  have hp : arrival.provisioning ∈ w.directory.provisionings := by
    simp only [Directory.step] at hdirectory
    split_ifs at hdirectory with hp
    exact hp.1
  dsimp only at hrest
  cases hu : arrival.provisioning.found <|>
      directory.subject? arrival.provisioning.claims.subject with
  | none =>
      rw [hu] at hrest
      cases hrest
  | some u =>
      rw [hu] at hrest
      dsimp only at hrest
      split_ifs at hrest with hdisabled
      · exact .inl (Option.some.inj hrest).symm
      · refine .inr ⟨u, ?_⟩
        have hrow : directory.Holds u ∧
            u.oidcSubject = arrival.provisioning.claims.subject := by
          cases hfound : arrival.provisioning.found with
          | some found =>
              rw [hfound] at hu
              cases hu
              obtain ⟨hsubject, hholds⟩ := (h.directory.provisionings _ hp).2 u hfound
              exact ⟨hholds.step hdirectory, hsubject⟩
          | none =>
              rw [hfound] at hu
              obtain ⟨hmem, hsubject⟩ := Directory.subject?_spec hu
              exact ⟨Directory.holds_of_mem hmem, hsubject⟩
        exact ⟨hrow.1, hrow.2, (Option.some.inj hrest).symm⟩

theorem Sound.finish (h : w.Sound c) {arrival : Arrival} {id : ℕ} {now : ℤ}
    (harrival : arrival ∈ w.arrivals) (hstep : w.finish c arrival id now = some w') :
    w'.Sound c := by
  obtain ⟨directory, hdirectory, hcases⟩ := finish_spec h hstep
  have hs := h.directoryStep hdirectory fun _ heq => DirectoryAction.noConfusion heq
  have hproven := (h.arrivals arrival harrival).1
  have hstays := (h.arrivals arrival harrival).2
  rcases hcases with rfl | ⟨u, hu, hsubject, rfl⟩
  · exact ⟨hs.directory, hs.attempts, hs.grants, hs.logins, hs.sessions, hs.csrfDrawn, hs.csrfOwn,
      fun x hx => hs.arrivals x (List.erase_subset hx), hs.redirects,
      fun x hx => (hs.admitted x hx).mono (List.Subset.refl _) (List.Subset.refl _), hs.patches⟩
  · have hgrown := hs.grow (w.drawn + 1) w.grants w.attempts (Nat.le_succ _) (List.Subset.refl _)
      (List.Subset.refl _) (fun g hg hnot => absurd hg hnot) fun a ha => .inl ha
    have hfresh : ∀ x ∈ w.held, w.drawn ∉ x.2.payload.csrf := fun x hx hv =>
      absurd (h.csrfDrawn x hx _ hv) (lt_irrefl _)
    refine ⟨hs.directory, hgrown.attempts, hgrown.grants, fun x hx haud => ?_,
      fun x hx haud => ?_, fun x hx v hv => ?_, fun x hx y hy v hv hv' => ?_,
      fun x hx => hs.arrivals x (List.erase_subset hx), fun location hl => ?_,
      fun x hx => (hs.admitted x hx).mono (List.Subset.refl _) (List.Subset.refl _), hs.patches⟩
    · rcases List.mem_append.1 hx with hx | hx
      · exact h.logins x hx haud
      · rw [List.mem_singleton.1 hx] at haud
        cases haud
    · rcases List.mem_append.1 hx with hx | hx
      · exact hs.sessions x hx haud
      · rw [List.mem_singleton.1 hx]
        exact ⟨u, hu, rfl, hsubject ▸ hproven⟩
    · rcases List.mem_append.1 hx with hx | hx
      · exact (h.csrfDrawn x hx v hv).trans (Nat.lt_succ_self _)
      · rw [List.mem_singleton.1 hx] at hv
        cases hv
        exact Nat.lt_succ_self _
    · rcases List.mem_append.1 hx with hx | hx
      · rcases List.mem_append.1 hy with hy | hy
        · exact h.csrfOwn x hx y hy v hv hv'
        · rw [List.mem_singleton.1 hy] at hv'
          cases hv'
          exact absurd hv (hfresh x hx)
      · rw [List.mem_singleton.1 hx] at hv ⊢
        cases hv
        rcases List.mem_append.1 hy with hy | hy
        · exact absurd hv' (hfresh y hy)
        · rw [List.mem_singleton.1 hy]
    · rcases List.mem_append.1 hl with hl | hl
      · exact h.redirects location hl
      · rw [List.mem_singleton.1 hl]
        exact hstays

theorem letThrough (h : w.Sound c) {r : Request} {u : User} {now : ℤ}
    (hsends : w.Sends c r.browser r.token) (hguessed : r.forged → w.Guessed c r.presented)
    (haccept : letIn c.jwt w.directory.users now r = some u) : w.LetThrough c r u := by
  obtain ⟨haud, hsub, hu, henabled, hrank, hcsrf⟩ := letIn_spec haccept
  obtain ⟨v, hv, hvsub, hproven⟩ := hsends.proven h haud
  have hid : u.id = v.id := Option.some.inj (hsub.symm.trans hvsub)
  refine ⟨(hv.subject h.directory.ids hu hid) ▸ hproven, henabled, hrank, fun hforged hsafe => ?_⟩
  obtain ⟨csrf, htoken, hpresented⟩ := hcsrf hsafe
  obtain ⟨x, hx, heq, hbrowser⟩ := hsends
  rw [← heq] at htoken
  -- only the browser it was given to has the token of a session
  obtain ⟨y, hy, hycsrf, hdishonest⟩ := hguessed hforged csrf hpresented ⟨x, hx, htoken⟩
  have hsame := h.csrfOwn x hx y hy csrf htoken hycsrf
  rcases hbrowser with hown | hshared
  · rw [← hown, hsame]
    exact hdishonest
  · exact hshared.1

theorem Sound.request (h : w.Sound c) {r : Request} {now : ℤ}
    (hsends : w.Sends c r.browser r.token) (hguessed : r.forged → w.Guessed c r.presented)
    (hstep : w.request c r now = some w') : w'.Sound c := by
  obtain ⟨u, hu, hrest⟩ := Option.bind_eq_some_iff.1 hstep
  have hadmitted : ({ w with admitted := w.admitted ++ [(r, u)] } : World).Sound c := by
    refine ⟨h.directory, h.attempts, h.grants, h.logins, h.sessions, h.csrfDrawn, h.csrfOwn,
      h.arrivals, h.redirects, fun x hx => ?_, fun p hp => ?_⟩
    · rcases List.mem_append.1 hx with hx | hx
      · exact (h.admitted x hx).mono (List.Subset.refl _) (List.Subset.refl _)
      · rw [List.mem_singleton.1 hx]
        exact (letThrough h hsends hguessed hu).mono (List.Subset.refl _) (List.Subset.refl _)
    · obtain ⟨x, hx, hasked⟩ := h.patches p hp
      exact ⟨x, List.mem_append_left _ hx, hasked⟩
  cases hupdate : r.update with
  | none =>
      simp only [hupdate, Option.some.injEq] at hrest
      exact hrest ▸ hadmitted
  | some update =>
      simp only [hupdate] at hrest
      split_ifs at hrest with hroute
      obtain ⟨directory, hdirectory, hw'⟩ := Option.bind_eq_some_iff.1 hrest
      cases hw'
      refine hadmitted.directoryStep hdirectory fun p hp => ?_
      obtain ⟨hid, htarget, hchanges⟩ := DirectoryAction.accept.inj hp
      refine ⟨(r, u), List.mem_append_right _ (List.mem_singleton_self _), hid, ?_, ?_⟩
      · rw [hupdate, ← htarget, ← hchanges]
      · simpa using fun hsafe => hroute (.inl hsafe)

theorem Sound.step {a : LoginAction} (h : w.Sound c) (hstep : Step c w a w') : w'.Sound c := by
  cases hstep with
  | login => exact h.login _ _ _
  | authorize hknows =>
      refine h.grow (w.drawn + 1) _ w.attempts (Nat.le_succ _) (List.subset_append_left _ _)
        (List.Subset.refl _) (fun g hg hnot => ?_) fun a ha => .inl ha
      rcases List.mem_append.1 hg with hg | hg
      · exact absurd hg hnot
      · rw [List.mem_singleton.1 hg]
        exact hknows
  | callback hsends hcallback => exact h.callback hsends hcallback
  | finish harrival hfinish => exact h.finish harrival hfinish
  | flash => exact h.hold nofun nofun rfl
  | request hsends hguessed hrequest => exact h.request hsends hguessed hrequest
  | load hdirectory =>
      exact h.directoryStep hdirectory fun _ heq => DirectoryAction.noConfusion heq
  | commit hdirectory =>
      exact h.directoryStep hdirectory fun _ heq => DirectoryAction.noConfusion heq

theorem Reached.sound (h : Reached c w) : w.Sound c := by
  induction h with
  | start =>
      have hdirectory : (({} : World).directory).Sound c.bootstrap :=
        Directory.Reached.sound (.start rfl)
      refine ⟨hdirectory, ?_, ?_, ?_, ?_, ?_, ?_, ?_, ?_, ?_, ?_⟩ <;> simp
  | step _ hstep ih => exact ih.step hstep

/-- Behind every session is a proof of its user, in the browser itself if it is honest; and all
were sent on to a page of the site. -/
theorem sessions_proven (h : Reached c w) :
    (∀ x ∈ w.held, x.2.aud = .session → ∃ u ∈ w.directory.users,
        x.2.payload.sub = some u.id ∧ w.Proven c x.1 u.oidcSubject) ∧
      ∀ location ∈ w.redirects, staysOnSite location = true := by
  refine ⟨fun x hx haud => ?_, h.sound.redirects⟩
  obtain ⟨u, ⟨v, hv, hid, hsubject⟩, hsub, hproven⟩ := h.sound.sessions x hx haud
  exact ⟨v, hv, by rw [hid]; exact hsub, hsubject ▸ hproven⟩

/-- What is let through has such a proof behind it, and was asked for by a page of the site where
it changes anything from an honest browser; no user is changed without. -/
theorem requests_proven (h : Reached c w) :
    (∀ x ∈ w.admitted, w.LetThrough c x.1 x.2) ∧ ∀ p ∈ w.directory.patches, w.AskedFor p :=
  ⟨h.sound.admitted, h.sound.patches⟩

def office : LoginSettings where
  bootstrap := Directory.bootstrap
  jwt :=
    { decodes := fun aud now t => t.aud = aud && now < t.exp
      audience := fun aud now t h => by simp at h; exact h.1 }
  provider := { challengeOf := id, enforces := true }
  sessionTtlMinutes := 480
  honest browser := browser = 1

def returning : World := ({} : World).login 1 (some "/findings") 0

def rootToken : IdToken := { sub := "root" }

def granted : World :=
  { returning with
    drawn := returning.drawn + 1
    grants := returning.grants ++
      [{ code := returning.drawn
         browser := 1
         nonce := 1
         challenge := 2
         idToken := rootToken }] }

def rootCookie : Token := issueLoginState ⟨0, 1, 2, "/findings"⟩ 0

def rootSession : Token := issueSession 1 4 480 60

def delegation : Request where
  browser := 1
  token := rootSession
  presented := some 4
  minimum := .admin
  update := some (2, { role := some .admin })

def arrived : World := (granted.callback office 1 rootCookie 3 0 60).getD {}

def entered : World :=
  (arrived.finish office
    { browser := 1
      provisioning := { claims := { subject := "root", displayName := "root" }, found := none }
      returnPath := "/findings" } 1 60).getD {}

def delegated : World := (entered.request office delegation 120).getD {}

theorem delegated_reached : Reached office delegated := by
  have hlogin : Reached office returning := Reached.start.step .login
  have hknows : returning.Knows office 1 1 := ⟨by decide, by decide⟩
  have hgranted : Reached office granted := hlogin.step (.authorize hknows)
  have hcookie : granted.Sends office 1 rootCookie :=
    ⟨(1, rootCookie), List.mem_singleton_self _, rfl, .inl rfl⟩
  have hcallback : granted.callback office 1 rootCookie 3 0 60 = some arrived := rfl
  have harrived : Reached office arrived := hgranted.step (.callback hcookie hcallback)
  have hentered : Reached office entered :=
    harrived.step (.finish (List.mem_singleton_self _) rfl)
  have hsession : entered.Sends office 1 rootSession :=
    ⟨(1, rootSession), List.mem_append_right _ (List.mem_singleton_self _), rfl, .inl rfl⟩
  have hrequest : entered.request office delegation 120 = some delegated := rfl
  exact hentered.step (.request hsession (fun hforged => absurd hforged (by decide)) hrequest)

theorem delegated_sessions :
    (∀ x ∈ delegated.held, x.2.aud = .session → ∃ u ∈ delegated.directory.users,
        x.2.payload.sub = some u.id ∧ delegated.Proven office x.1 u.oidcSubject) ∧
      ∀ location ∈ delegated.redirects, staysOnSite location = true :=
  sessions_proven delegated_reached

theorem delegated_requests : delegated.admitted.length = 1 ∧
    (∀ x ∈ delegated.admitted, delegated.LetThrough office x.1 x.2) ∧
      ∀ p ∈ delegated.directory.patches, delegated.AskedFor p :=
  ⟨rfl, requests_proven delegated_reached⟩

end World
end IcebergSST.Identity
