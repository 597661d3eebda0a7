import IcebergSST.Users
import Mathlib.Data.List.DropRight

/-!
# Cookies, and who a request comes from

Sessions, logins in flight and messages travel in signed cookies of one key, told apart by
their audience. A session says which user it is of, and nothing about what he may do. What a
browser sends with a request is not believed to be his doing without the session's token.
-/

namespace IcebergSST.Identity

inductive Audience
  | session
  | login
  | flash
  deriving DecidableEq, Repr

/-- The claims of a cookie; drawn values are numbers. -/
structure Payload where
  sub : Option ℕ := none
  csrf : Option ℕ := none
  state : Option ℕ := none
  nonce : Option ℕ := none
  verifier : Option ℕ := none
  next : Option String := none
  msg : Option String := none
  deriving DecidableEq

structure Token where
  payload : Payload
  iat : ℤ
  exp : ℤ
  aud : Audience
  deriving DecidableEq

/-- The library that verifies a token: whatever else it requires, the audience is right. -/
structure JwtLibrary where
  decodes : Audience → ℤ → Token → Bool
  audience : ∀ aud now t, decodes aud now t → t.aud = aud

structure SessionData where
  userId : ℕ
  csrfToken : ℕ
  deriving DecidableEq

structure LoginState where
  state : ℕ
  nonce : ℕ
  codeVerifier : ℕ
  returnPath : String := "/"
  deriving DecidableEq

def loginStateTtl : ℤ := 10 * 60

def safeReturnPath (candidate : Option String) : String :=
  let text := (candidate.getD "").toList
  if text.head? ≠ some '/' ∨ ['/', '/'].IsPrefix text ∨ ['/', '\\'].IsPrefix text ∨
      '\\' ∈ text ∨ text.any (fun char => char < ' ' ∨ char = Char.ofNat 0x7f)
  then "/"
  else String.ofList text

/-- What a browser drops from an address before it parses it. -/
def browserClean (text : List Char) : List Char :=
  ((text.dropWhile (· ≤ ' ')).rdropWhile (· ≤ ' ')).filter
    fun char => char ≠ '\t' ∧ char ≠ '\n' ∧ char ≠ '\r'

/-- The text before the first colon could be a scheme. -/
def hasScheme (text : List Char) : Bool :=
  match text.span (fun char => char.isAlphanum ∨ char = '+' ∨ char = '-' ∨ char = '.') with
  | (c :: _, ':' :: _) => c.isAlpha
  | _ => false

/-- A browser that is sent there from a page of a site stays on that site: the address has no
scheme and no authority of its own, and a backslash is a slash to it. -/
def staysOnSite (location : String) : Bool :=
  let text := browserClean location.toList
  let slash := fun char : Char => char = '/' ∨ char = '\\'
  !hasScheme text && !((text.take 2).length = 2 && (text.take 2).all slash)

theorem browserClean_slash {text : List Char} (h : ∀ c ∈ text, ' ' ≤ c) :
    ∃ rest, rest <+: text ∧ browserClean ('/' :: text) = '/' :: rest := by
  have hkeep : ∀ c ∈ '/' :: text, c ≠ '\t' ∧ c ≠ '\n' ∧ c ≠ '\r' := by
    intro c hc
    have hle : ' ' ≤ c := by
      rcases List.mem_cons.1 hc with rfl | hc
      · decide
      · exact h c hc
    refine ⟨?_, ?_, ?_⟩ <;> rintro rfl <;> revert hle <;> decide
  have hdrop : ('/' :: text).dropWhile (· ≤ ' ') = '/' :: text :=
    List.dropWhile_cons_of_neg (by decide)
  have hhead : ('/' :: text).rdropWhile (· ≤ ' ') <+: '/' :: text :=
    List.rdropWhile_prefix _ _
  have hne : ('/' :: text).rdropWhile (· ≤ ' ') ≠ [] := by
    rw [Ne, List.rdropWhile_eq_nil_iff]
    exact fun hall => absurd (hall '/' List.mem_cons_self) (by decide)
  obtain ⟨c, rest, hcons⟩ := List.exists_cons_of_ne_nil hne
  rw [hcons] at hhead
  obtain ⟨rfl, hrest⟩ := List.cons_prefix_cons.1 hhead
  refine ⟨rest, hrest, ?_⟩
  unfold browserClean
  rw [hdrop, hcons]
  refine List.filter_eq_self.2 fun c hc => ?_
  simpa using hkeep c (hhead.subset hc)

theorem staysOnSite_of_slash {text : List Char} (hcontrol : ∀ c ∈ text, ' ' ≤ c)
    (hslash : text.head? ≠ some '/' ∧ text.head? ≠ some '\\') :
    staysOnSite (String.ofList ('/' :: text)) = true := by
  obtain ⟨rest, hrest, hclean⟩ := browserClean_slash hcontrol
  have hsecond : ∀ c ∈ rest.head?, c ≠ '/' ∧ c ≠ '\\' := by
    intro c hc
    cases rest with
    | nil => cases hc
    | cons c' rest =>
        cases hc
        obtain ⟨tail, rfl⟩ := hrest
        exact ⟨fun heq => hslash.1 (by rw [heq]; rfl), fun heq => hslash.2 (by rw [heq]; rfl)⟩
  have hscheme : hasScheme ('/' :: rest) = false := rfl
  unfold staysOnSite
  rw [String.toList_ofList, hclean]
  dsimp only
  rw [hscheme]
  cases rest with
  | nil => rfl
  | cons c rest => simpa using hsecond c rfl

/-- Wherever a login was to return to, the browser stays on the site. -/
theorem staysOnSite_safeReturnPath (candidate : Option String) :
    staysOnSite (safeReturnPath candidate) = true := by
  unfold safeReturnPath
  dsimp only
  split_ifs with hunsafe
  · decide
  · push Not at hunsafe
    obtain ⟨hhead, hslashes, hbackslash, -, hcontrol⟩ := hunsafe
    cases htext : (candidate.getD "").toList with
    | nil => simp [htext] at hhead
    | cons c text =>
        rw [htext] at hhead hslashes hbackslash hcontrol
        obtain rfl := Option.some.inj hhead
        have hpair : ∀ second, text.head? = some second → ['/', second] <+: '/' :: text := by
          intro second hsecond
          cases text with
          | nil => cases hsecond
          | cons c text =>
              cases hsecond
              exact ⟨text, rfl⟩
        refine staysOnSite_of_slash (fun c hc => ?_)
          ⟨fun h => hslashes (hpair _ h), fun h => hbackslash (hpair _ h)⟩
        by_contra hlt
        exact hcontrol (List.any_eq_true.2
          ⟨c, List.mem_cons_of_mem _ hc, decide_eq_true (.inl (Char.not_le.1 hlt))⟩)

def issueSession (userId csrfToken : ℕ) (ttlMinutes : ℕ) (now : ℤ) : Token where
  payload := { sub := some userId, csrf := some csrfToken }
  iat := now
  exp := now + ttlMinutes * 60
  aud := .session

def issueLoginState (state : LoginState) (now : ℤ) : Token where
  payload :=
    { state := some state.state, nonce := some state.nonce, verifier := some state.codeVerifier
      next := some state.returnPath }
  iat := now
  exp := now + loginStateTtl
  aud := .login

def issueFlash (message : String) (ttl now : ℤ) : Token where
  payload := { msg := some message }
  iat := now
  exp := now + ttl
  aud := .flash

section Reading
variable (jwt : JwtLibrary) (now : ℤ) (t : Token)

def decode (audience : Audience) : Option Payload :=
  if jwt.decodes audience now t then some t.payload else none

def readSession : Option SessionData := do
  let claims ← decode jwt now t .session
  let userId ← claims.sub
  let csrfToken ← claims.csrf
  return { userId, csrfToken }

def readLoginState : Option LoginState := do
  let claims ← decode jwt now t .login
  let state ← claims.state
  let nonce ← claims.nonce
  let codeVerifier ← claims.verifier
  return { state, nonce, codeVerifier, returnPath := claims.next.getD "/" }

variable {jwt now t}

theorem decode_spec {audience : Audience} {claims : Payload}
    (h : decode jwt now t audience = some claims) : t.aud = audience ∧ claims = t.payload := by
  unfold decode at h
  split_ifs at h with hdecodes
  exact ⟨jwt.audience _ _ _ hdecodes, (Option.some.inj h).symm⟩

theorem readSession_spec {data : SessionData} (h : readSession jwt now t = some data) :
    t.aud = .session ∧ t.payload.sub = some data.userId ∧
      t.payload.csrf = some data.csrfToken := by
  obtain ⟨claims, hdecode, hrest⟩ := Option.bind_eq_some_iff.1 h
  obtain ⟨userId, hsub, hrest⟩ := Option.bind_eq_some_iff.1 hrest
  obtain ⟨csrfToken, hcsrf, hdata⟩ := Option.bind_eq_some_iff.1 hrest
  cases hdata
  obtain ⟨haud, rfl⟩ := decode_spec hdecode
  exact ⟨haud, hsub, hcsrf⟩

theorem readLoginState_spec {state : LoginState} (h : readLoginState jwt now t = some state) :
    t.aud = .login ∧ t.payload.nonce = some state.nonce ∧
      state.returnPath = t.payload.next.getD "/" := by
  obtain ⟨claims, hdecode, hrest⟩ := Option.bind_eq_some_iff.1 h
  obtain ⟨presented, -, hrest⟩ := Option.bind_eq_some_iff.1 hrest
  obtain ⟨nonce, hnonce, hrest⟩ := Option.bind_eq_some_iff.1 hrest
  obtain ⟨verifier, -, hstate⟩ := Option.bind_eq_some_iff.1 hrest
  cases hstate
  obtain ⟨haud, rfl⟩ := decode_spec hdecode
  exact ⟨haud, hnonce, rfl⟩

end Reading

/-- What reaches a route; `forged` if a page of another site had the browser send it. -/
structure Request where
  browser : ℕ
  token : Token
  forged : Bool := false
  /-- The method changes nothing. -/
  safe : Bool := false
  presented : Option ℕ := none
  minimum : UserRole := .viewer
  /-- A `PATCH` of a user. -/
  update : Option (ℕ × UserUpdate) := none
  deriving DecidableEq

def csrfVerified (expected : ℕ) (presented : Option ℕ) : Bool := presented = some expected

def currentUser (users : List User) (data : SessionData) : Option User :=
  (users.find? (·.id = data.userId)).filter (!·.disabled)

def letIn (jwt : JwtLibrary) (users : List User) (now : ℤ) (r : Request) : Option User := do
  let data ← readSession jwt now r.token
  let user ← currentUser users data
  if roleRank user.role < roleRank r.minimum then none
  else if r.safe || csrfVerified data.csrfToken r.presented then some user
  else none

theorem letIn_spec {jwt : JwtLibrary} {users : List User} {now : ℤ} {r : Request} {u : User}
    (h : letIn jwt users now r = some u) :
    r.token.aud = .session ∧ r.token.payload.sub = some u.id ∧ u ∈ users ∧ u.disabled = false ∧
      roleRank r.minimum ≤ roleRank u.role ∧
      (r.safe = false → ∃ csrf, r.token.payload.csrf = some csrf ∧ r.presented = some csrf) := by
  obtain ⟨data, hdata, hrest⟩ := Option.bind_eq_some_iff.1 h
  obtain ⟨user, huser, hchecks⟩ := Option.bind_eq_some_iff.1 hrest
  obtain ⟨haud, hsub, hcsrf⟩ := readSession_spec hdata
  obtain ⟨hfind, henabled⟩ := Option.filter_eq_some_iff.1 huser
  have hid : user.id = data.userId := by simpa using List.find?_some hfind
  split_ifs at hchecks with hrank hcheck
  cases hchecks
  refine ⟨haud, by rw [hsub, hid], List.mem_of_find?_eq_some hfind, by simpa using henabled,
    not_lt.1 hrank, fun hsafe => ⟨data.csrfToken, hcsrf, ?_⟩⟩
  simpa [hsafe, csrfVerified] using hcheck

end IcebergSST.Identity
