import IcebergSST.Urls

/-!
# The credential and the site

A client asks a site for JSON and downloads attachments. Where it asks next is named by
what the site answered before: cursors, download links, the base it says its links are
relative to, redirects. A conversation is any sequence of calls with any answers; every
request in it carries the headers it is sent with.
-/

namespace IcebergSST.Http

inductive Product
  | confluence
  | jira
  deriving DecidableEq, Repr

def Product.defaultApiPrefix : Product → PyStr
  | .confluence => pyStr "/wiki/api/v2"
  | .jira => pyStr "/rest/api/3"

/-- Statuses meaning "your credential is wrong". -/
def Product.credentialStatuses : Product → List ℕ
  | .confluence => [401, 403]
  | .jira => [401]

/-- Statuses meaning "not this object". -/
def Product.forbiddenStatuses : Product → List ℕ
  | .confluence => []
  | .jira => [403]

def retryableStatuses : List ℕ := [500, 502, 503, 504]

def maxPages : ℕ := 10000

def maxRedirects : ℕ := 5

structure RateLimitPolicy where
  attempts : ℕ := 5
  baseDelaySeconds : Float := 1
  maxDelaySeconds : Float := 60
  maxWaitSeconds : Float := 300
  deriving Repr

/-- From `2 ** 1024` on a power of two is no float, and the product an `OverflowError`: `none`. -/
def RateLimitPolicy.delayFor (p : RateLimitPolicy) (attempt : ℕ) : Option Float :=
  if attempt < 1024 then
    let delay := p.baseDelaySeconds * (2 ^ attempt).toFloat
    some (if p.maxDelaySeconds < delay then p.maxDelaySeconds else delay)
  else none

/-- `authorization` is the header the credential makes. -/
structure Headers where
  accept : PyStr
  authorization : Option PyStr := none
  deriving DecidableEq, Repr

structure Request where
  url : PyStr
  headers : Headers
  json : Bool
  deriving DecidableEq, Repr

/-- What a JSON object that a site answers says of links. -/
structure Payload where
  base : Option PyStr := none
  next : Option PyStr := none
  /-- `results` is a list of objects. -/
  results : Bool := true
  deriving DecidableEq, Repr

inductive Body
  | object (payload : Payload)
  | other
  | oversized
  deriving DecidableEq, Repr

/-- An answer; `redirect` is where a redirect with a location leads, resolved, and `retryAfter`
what `float` makes of that header, if it is there and can be read. -/
structure Answer where
  status : ℕ
  retryAfter : Option Float := none
  redirect : Option PyStr := none
  body : Body := .other
  deriving Repr

/-- `_retry_after`: a wait that the server names, if it is one. -/
def Answer.wait (a : Answer) (fallback : Float) : Float :=
  match a.retryAfter with
  | some parsed => if 0 < parsed then parsed else fallback
  | none => fallback

/-- What comes of one request: the transport fails, or there is an answer. -/
inductive Reply
  | dropped
  | answer (a : Answer)
  deriving Repr

/-- How a call fails; `unanswered` is a conversation observed only so far. -/
inductive HttpError
  | connectorError
  | credentialError
  | permissionDenied
  | rateLimited
  | downloadTooLarge
  | valueError
  | overflowError
  | unanswered
  deriving DecidableEq, Repr

structure HttpClient where
  product : Product
  baseUrl : PyStr
  credential : Option PyStr
  apiPrefix : PyStr
  linkBase : PyStr
  rateLimit : RateLimitPolicy
  deriving Repr

/-- The requests of one loop, the answer it hands on, and the replies left. -/
abbrev Streamed := List Request × Except HttpError Answer × List Reply

structure Exchange (α : Type) where
  requests : List Request
  result : Except HttpError α
  client : HttpClient
  replies : List Reply

section Client

variable (refused : PyStr → Bool)

/-- A leftover context of a Confluence base URL goes; `none` is a `ValueError`. -/
def normalise (product : Product) (baseUrl apiPrefix : PyStr) : Option PyStr :=
  match product with
  | .jira => some baseUrl
  | .confluence =>
      (urlsplit refused baseUrl).map fun split =>
        if apiPrefix = Product.confluence.defaultApiPrefix ∧
            rstripSlash split.path = pyStr "/wiki" ∧ split.query = [] ∧ split.fragment = [] then
          split.scheme ++ pyStr "://" ++ split.netloc
        else baseUrl

def connect (product : Product) (baseUrl apiPrefix linkBase : PyStr) (credential : Option PyStr)
    (rateLimit : RateLimitPolicy) : Option HttpClient :=
  let apiPrefix := if apiPrefix = [] then product.defaultApiPrefix else apiPrefix
  (normalise refused product (rstripSlash baseUrl) apiPrefix).map fun base =>
    { product, baseUrl := base, credential, apiPrefix, linkBase := rstripSlash linkBase, rateLimit }

namespace HttpClient

variable (client : HttpClient)

/-- `none` is a `ValueError`. -/
def sameOrigin (url : PyStr) : Option Bool :=
  match urlsplit refused client.baseUrl, urlsplit refused url with
  | some base, some other =>
      some ((other.scheme, other.netloc) = (base.scheme, base.netloc))
  | _, _ => none

def headers (url : PyStr) : Headers where
  accept := pyStr "application/json"
  authorization := if client.sameOrigin refused url = some true then client.credential else none

def url (path : PyStr) : PyStr := client.baseUrl ++ client.apiPrefix ++ path

def resolve (url : PyStr) : Option PyStr :=
  match client.product with
  | .jira => joinLink refused client.baseUrl url
  | .confluence =>
      joinLink refused (if client.linkBase = [] then client.baseUrl else client.linkBase) url

/-- A base the site reports is adopted if it is on the site. -/
def learnLinks (payload : Payload) : Option HttpClient :=
  match client.product, payload.base with
  | .confluence, some base =>
      if base = [] then some client
      else (client.sameOrigin refused base).map fun same =>
        if same then { client with linkBase := rstripSlash base } else client
  | _, _ => some client

def raiseForStatus (status : ℕ) : Except HttpError Unit :=
  if status ∈ client.product.credentialStatuses then .error .credentialError
  else if status ∈ client.product.forbiddenStatuses then .error .permissionDenied
  else if 400 ≤ status then .error .connectorError
  else .ok ()

def backOff (attempt : ℕ) : Except HttpError ℕ :=
  if attempt + 1 < client.rateLimit.attempts then
    match client.rateLimit.delayFor attempt with
    | none => .error .overflowError
    | some _ => .ok (attempt + 1)
  else .ok (attempt + 1)

def retry (attempt : ℕ) (replies : List Reply) (next : ℕ → Streamed) : Streamed :=
  match client.backOff attempt with
  | .error e => ([], .error e, replies)
  | .ok attempt => next attempt

/-- Retry, throttle, and hand on the one response worth reading. -/
def stream (request : Request) : ℕ → ℕ → Float → List Reply → Streamed
  | attempt, _, _, [] =>
      if attempt < client.rateLimit.attempts then ([request], .error .unanswered, [])
      else ([], .error .connectorError, [])
  | attempt, throttles, waited, reply :: replies =>
      if attempt < client.rateLimit.attempts then
        let rest : Streamed :=
          match reply with
          | .dropped =>
              client.retry attempt replies fun attempt =>
                stream request attempt throttles waited replies
          | .answer a =>
              if a.status = 429 then
                -- the fallback is computed whether the header is there or not
                match client.rateLimit.delayFor throttles with
                | none => ([], .error .overflowError, replies)
                | some fallback =>
                    let waited := waited + a.wait fallback
                    if client.rateLimit.maxWaitSeconds < waited then
                      ([], .error .rateLimited, replies)
                    else stream request attempt (throttles + 1) waited replies
              else if a.status ∈ retryableStatuses then
                client.retry attempt replies fun attempt =>
                  stream request attempt throttles waited replies
              else ([], .ok a, replies)
        (request :: rest.1, rest.2)
      else ([], .error .connectorError, reply :: replies)

def failed {α : Type} (error : HttpError) (requests : List Request) (replies : List Reply) :
    Exchange α :=
  { requests, result := .error error, client, replies }

def readJson (a : Answer) : Except HttpError Payload :=
  match client.raiseForStatus a.status, a.body with
  | .error e, _ => .error e
  | .ok (), .object payload => .ok payload
  | .ok (), .other | .ok (), .oversized => .error .connectorError

def onSite (url : PyStr) : Except HttpError PyStr :=
  match client.resolve refused url, urlsplit refused url with
  | some resolved, some _ =>
      match client.sameOrigin refused resolved with
      | none => .error .valueError
      | some false => .error .connectorError
      | some true => .ok resolved
  | _, _ => .error .valueError

def getJson (url : PyStr) (replies : List Reply) : Exchange Payload :=
  match client.onSite refused url with
  | .error e => client.failed e [] replies
  | .ok resolved =>
      let request := { url := resolved, headers := client.headers refused resolved, json := true }
      match client.stream request 0 0 0 replies with
      | (requests, .error e, rest) => client.failed e requests rest
      | (requests, .ok a, rest) =>
          match client.readJson a with
          | .error e => client.failed e requests rest
          | .ok payload =>
              match client.learnLinks refused payload with
              | none => client.failed .valueError requests rest
              | some client' =>
                  { requests, result := .ok payload, client := client', replies := rest }

/-- The pages of a collection, each cursor followed verbatim. -/
def pages : ℕ → HttpClient → PyStr → List Reply → Exchange Unit
  | 0, client, _, replies => client.failed .connectorError [] replies
  | n + 1, client, url, replies =>
      let page := client.getJson refused url replies
      match page.result with
      | .error e => page.client.failed e page.requests page.replies
      | .ok payload =>
          if !payload.results then page.client.failed .connectorError page.requests page.replies
          else
            match payload.next with
            | none =>
                { requests := page.requests, result := .ok (), client := page.client
                  replies := page.replies }
            | some next =>
                match page.client.resolve refused next with
                | none => page.client.failed .valueError page.requests page.replies
                | some following =>
                    let rest := pages n page.client following page.replies
                    { rest with requests := page.requests ++ rest.requests }

def paginate (path : PyStr) (replies : List Reply) : Exchange Unit :=
  pages refused maxPages client (client.url path) replies

/-- The hops of a download. The credential is not sent on behind the first. -/
def hops : ℕ → PyStr → Headers → List Reply → Exchange Unit
  | 0, _, _, replies => client.failed .connectorError [] replies
  | n + 1, target, headers, replies =>
      if urlsplit refused target = none then client.failed .valueError [] replies
      else
        match client.stream { url := target, headers, json := false } 0 0 0 replies with
        | (requests, .error e, rest) => client.failed e requests rest
        | (requests, .ok a, rest) =>
            match a.redirect with
            | some next =>
                if next = [] then client.failed .connectorError requests rest
                else
                  let more := hops n next { accept := pyStr "*/*" } rest
                  { more with requests := requests ++ more.requests }
            | none =>
                match client.raiseForStatus a.status, a.body with
                | .error e, _ => client.failed e requests rest
                | .ok (), .oversized => client.failed .downloadTooLarge requests rest
                | .ok (), _ => { requests, result := .ok (), client, replies := rest }

def getBytes (url : PyStr) (replies : List Reply) : Exchange Unit :=
  match client.onSite refused url with
  | .error e => client.failed e [] replies
  | .ok target =>
      client.hops refused (maxRedirects + 1) target (client.headers refused target) replies

end HttpClient

/-- What a connector does with its client. The URLs may be any the site has named. -/
inductive Call
  | getJson (url : PyStr)
  | getBytes (url : PyStr)
  | paginate (path : PyStr)
  deriving DecidableEq, Repr

def converse : HttpClient → List Call → List Reply → List Request
  | _, [], _ => []
  | client, .getJson url :: calls, replies =>
      let e := client.getJson refused url replies
      e.requests ++ converse e.client calls e.replies
  | client, .getBytes url :: calls, replies =>
      let e := client.getBytes refused url replies
      e.requests ++ converse e.client calls e.replies
  | client, .paginate path :: calls, replies =>
      let e := client.paginate refused path replies
      e.requests ++ converse e.client calls e.replies

/-- The library sends a request whose URL it can parse as one of HTTP. -/
def Sent (r : Request) : Prop :=
  ∃ o, origin refused r.url = some o ∧ (o.1 = pyStr "http" ∨ o.1 = pyStr "https")

end Client

section Client

variable {refused : PyStr → Bool} {client : HttpClient} {base : PyStr} {r request : Request}

/-- A request for JSON, or one with the credential, goes where `base` does. -/
def OnSite (refused : PyStr → Bool) (base : PyStr) (r : Request) : Prop :=
  r.json = true ∨ r.headers.authorization ≠ none →
    ∃ o, origin refused base = some o ∧ origin refused r.url = some o

structure Exchange.Keeps {α : Type} (refused : PyStr → Bool) (client : HttpClient)
    (e : Exchange α) : Prop where
  baseUrl : e.client.baseUrl = client.baseUrl
  onSite : ∀ r ∈ e.requests, OnSite refused client.baseUrl r

namespace HttpClient

theorem origin_of_sameOrigin {url : PyStr} (h : client.sameOrigin refused url = some true) :
    ∃ o, origin refused client.baseUrl = some o ∧ origin refused url = some o := by
  unfold sameOrigin at h
  split at h
  · rename_i b other hbase hother
    refine ⟨(b.scheme, b.netloc), by rw [origin, hbase]; rfl, ?_⟩
    have hsame : (other.scheme, other.netloc) = (b.scheme, b.netloc) := by simpa using h
    rw [origin, hother, ← hsame]
    rfl
  · cases h

theorem sameOrigin_of_onSite {url resolved : PyStr} (h : client.onSite refused url = .ok resolved) :
    client.sameOrigin refused resolved = some true := by
  unfold onSite at h
  split at h
  · split at h
    · cases h
    · cases h
    · exact Except.ok.inj h ▸ ‹_›
  · cases h

theorem lt_of_delayFor {policy : RateLimitPolicy} {attempt : ℕ} {delay : Float}
    (h : policy.delayFor attempt = some delay) : attempt < 1024 := by
  rw [RateLimitPolicy.delayFor] at h
  split_ifs at h with hlt
  exact hlt

/-- The budgets after one more turn of the loop: an attempt or a throttle is spent. -/
def Spends (attempt throttles attempt' throttles' : ℕ) : Prop :=
  attempt' = attempt + 1 ∧ throttles' = throttles ∨
    attempt' = attempt ∧ throttles' = throttles + 1 ∧ throttles < 1024

def Turns (request : Request) (attempt throttles : ℕ) (replies : List Reply)
    (rest : Streamed) : Prop :=
  rest.1 = [] ∧ rest.2.1 ≠ .error .unanswered ∨
    ∃ attempt' throttles' waited', Spends attempt throttles attempt' throttles' ∧
      rest = client.stream request attempt' throttles' waited' replies

theorem turns_retry (request : Request) (attempt throttles : ℕ) (waited : Float)
    (replies : List Reply) :
    client.Turns request attempt throttles replies (client.retry attempt replies fun attempt =>
      client.stream request attempt throttles waited replies) := by
  rw [retry, backOff]
  split_ifs
  · cases client.rateLimit.delayFor attempt with
    | none => exact Or.inl ⟨rfl, by simp⟩
    | some delay => exact Or.inr ⟨_, _, _, Or.inl ⟨rfl, rfl⟩, rfl⟩
  · exact Or.inr ⟨_, _, _, Or.inl ⟨rfl, rfl⟩, rfl⟩

theorem stream_of_spent (request : Request) (replies : List Reply) {attempt throttles : ℕ}
    {waited : Float} (h : ¬ attempt < client.rateLimit.attempts) :
    client.stream request attempt throttles waited replies =
      ([], .error .connectorError, replies) := by
  cases replies with
  | nil => rw [stream, if_neg h]
  | cons reply replies =>
      rw [stream.eq_def]
      exact if_neg h

theorem stream_cons (request : Request) (reply : Reply) (replies : List Reply)
    {attempt throttles : ℕ} {waited : Float} (h : attempt < client.rateLimit.attempts) :
    ∃ rest, client.stream request attempt throttles waited (reply :: replies) =
      (request :: rest.1, rest.2) ∧ client.Turns request attempt throttles replies rest := by
  rw [stream.eq_def]
  dsimp only
  rw [if_pos h]
  refine ⟨_, rfl, ?_⟩
  cases reply with
  | dropped => exact client.turns_retry request attempt throttles waited replies
  | answer a =>
      dsimp only
      split_ifs
      · cases hdelay : client.rateLimit.delayFor throttles with
        | none => exact Or.inl ⟨rfl, by simp⟩
        | some fallback =>
            dsimp only
            split_ifs
            · exact Or.inl ⟨rfl, by simp⟩
            · exact Or.inr ⟨_, _, _, Or.inr ⟨rfl, rfl, lt_of_delayFor hdelay⟩, rfl⟩
      · exact client.turns_retry request attempt throttles waited replies
      · exact Or.inl ⟨rfl, by simp⟩

theorem eq_of_mem_stream {replies : List Reply} {attempt throttles : ℕ} {waited : Float}
    (h : r ∈ (client.stream request attempt throttles waited replies).1) : r = request := by
  induction replies generalizing attempt throttles waited with
  | nil =>
      unfold stream at h
      split_ifs at h
      · exact List.mem_singleton.1 h
      · cases h
  | cons reply replies ih =>
      by_cases hattempt : attempt < client.rateLimit.attempts
      · obtain ⟨rest, heq, hrest⟩ := client.stream_cons request reply replies hattempt
        rw [heq] at h
        rcases List.mem_cons.1 h with rfl | h
        · rfl
        · rcases hrest with ⟨hnil, -⟩ | ⟨attempt', throttles', waited', -, rfl⟩
          · rw [hnil] at h
            cases h
          · exact ih h
      · rw [client.stream_of_spent request _ hattempt] at h
        cases h

theorem keeps_failed {α : Type} {error : HttpError} {requests : List Request}
    {replies : List Reply} (h : ∀ r ∈ requests, OnSite refused client.baseUrl r) :
    (client.failed (α := α) error requests replies).Keeps refused client :=
  ⟨rfl, h⟩

theorem baseUrl_of_learnLinks {payload : Payload} {client' : HttpClient}
    (h : client.learnLinks refused payload = some client') : client'.baseUrl = client.baseUrl := by
  unfold learnLinks at h
  split at h
  · split_ifs at h
    · rw [← Option.some.inj h]
    · obtain ⟨same, -, rfl⟩ := Option.map_eq_some_iff.1 h
      split_ifs <;> rfl
  · rw [← Option.some.inj h]

theorem keeps_getJson (url : PyStr) (replies : List Reply) :
    (client.getJson refused url replies).Keeps refused client := by
  unfold getJson
  split
  · exact keeps_failed fun _ hr => by cases hr
  · rename_i resolved hresolved
    obtain ⟨o, hbase, hurl⟩ := origin_of_sameOrigin (sameOrigin_of_onSite hresolved)
    dsimp only
    generalize hrequest : Request.mk resolved (client.headers refused resolved) true = request
    have hsite : ∀ r ∈ (client.stream request 0 0 0 replies).1,
        OnSite refused client.baseUrl r := by
      intro r hr _
      rw [eq_of_mem_stream hr, ← hrequest]
      exact ⟨o, hbase, hurl⟩
    split
    · rename_i heq
      exact keeps_failed (by rwa [heq] at hsite)
    · rename_i heq
      rw [heq] at hsite
      split
      · exact keeps_failed hsite
      · split
        · exact keeps_failed hsite
        · exact ⟨baseUrl_of_learnLinks ‹_›, hsite⟩

theorem keeps_pages (n : ℕ) (client : HttpClient) (url : PyStr) (replies : List Reply) :
    (pages refused n client url replies).Keeps refused client := by
  induction n generalizing client url replies with
  | zero => exact keeps_failed fun _ hr => by cases hr
  | succ n ih =>
      have hpage : (client.getJson refused url replies).Keeps refused client :=
        client.keeps_getJson url replies
      simp only [pages]
      generalize client.getJson refused url replies = page at hpage ⊢
      have hfailed : ∀ error, (page.client.failed (α := Unit) error page.requests
          page.replies).Keeps refused client :=
        fun error => ⟨hpage.baseUrl, hpage.onSite⟩
      split
      · exact hfailed _
      · split_ifs
        · exact hfailed _
        · split
          · exact ⟨hpage.baseUrl, hpage.onSite⟩
          · split
            · exact hfailed _
            · rename_i following _
              have hrest := ih page.client following page.replies
              refine ⟨hrest.baseUrl.trans hpage.baseUrl, fun r hr => ?_⟩
              rcases List.mem_append.1 hr with hr | hr
              · exact hpage.onSite r hr
              · exact hpage.baseUrl ▸ hrest.onSite r hr

/-- A chain of redirects keeps the credential on the site if its first hop does. -/
theorem keeps_hops {target : PyStr} {headers : Headers} (n : ℕ) (replies : List Reply)
    (h : headers.authorization ≠ none →
      ∃ o, origin refused client.baseUrl = some o ∧ origin refused target = some o) :
    (client.hops refused n target headers replies).Keeps refused client := by
  induction n generalizing target headers replies with
  | zero => exact keeps_failed fun _ hr => by cases hr
  | succ n ih =>
      simp only [hops]
      split_ifs
      · exact keeps_failed fun _ hr => by cases hr
      · generalize hrequest : Request.mk target headers false = request
        have hsite : ∀ r ∈ (client.stream request 0 0 0 replies).1,
            OnSite refused client.baseUrl r := by
          intro r hr hcarries
          rw [eq_of_mem_stream hr, ← hrequest] at hcarries ⊢
          exact h (hcarries.resolve_left (by simp))
        split
        · rename_i heq
          exact keeps_failed (by rwa [heq] at hsite)
        · rename_i requests a rest heq
          rw [heq] at hsite
          split
          · rename_i next _
            split_ifs
            · exact keeps_failed hsite
            · have hmore : (client.hops refused n next { accept := pyStr "*/*" } rest).Keeps
                  refused client :=
                ih rest fun hauth => absurd rfl hauth
              refine ⟨hmore.baseUrl, fun r hr => ?_⟩
              rcases List.mem_append.1 hr with hr | hr
              · exact hsite r hr
              · exact hmore.onSite r hr
          · split
            · exact keeps_failed hsite
            · exact keeps_failed hsite
            · exact ⟨rfl, hsite⟩

theorem keeps_getBytes (url : PyStr) (replies : List Reply) :
    (client.getBytes refused url replies).Keeps refused client := by
  unfold getBytes
  split
  · exact keeps_failed fun _ hr => by cases hr
  · rename_i target htarget
    exact keeps_hops _ _ fun _ => origin_of_sameOrigin (sameOrigin_of_onSite htarget)

end HttpClient

theorem onSite_of_mem_converse {calls : List Call} {replies : List Reply}
    (h : r ∈ converse refused client calls replies) : OnSite refused client.baseUrl r := by
  induction calls generalizing client replies with
  | nil => cases h
  | cons call calls ih =>
      cases call with
      | getJson url =>
          have hcall : (client.getJson refused url replies).Keeps refused client :=
            client.keeps_getJson url replies
          rcases List.mem_append.1 h with h | h
          · exact hcall.onSite r h
          · exact hcall.baseUrl ▸ ih h
      | getBytes url =>
          have hcall : (client.getBytes refused url replies).Keeps refused client :=
            client.keeps_getBytes url replies
          rcases List.mem_append.1 h with h | h
          · exact hcall.onSite r h
          · exact hcall.baseUrl ▸ ih h
      | paginate path =>
          have hcall : (client.paginate refused path replies).Keeps refused client :=
            HttpClient.keeps_pages maxPages client (client.url path) replies
          rcases List.mem_append.1 h with h | h
          · exact hcall.onSite r h
          · exact hcall.baseUrl ▸ ih h

theorem origin_without_scheme {rest : PyStr} {o : PyStr × PyStr}
    (h : origin refused (colon :: rest) = some o) : o.1 = [] := by
  have hclean : urlClean (colon :: rest) = colon :: rest.filter fun c => !isUnsafe c := by
    rw [urlClean, List.dropWhile_cons_of_neg (by decide), List.filter_cons_of_pos (by decide)]
  have hsplit : (splitScheme (urlClean (colon :: rest))).1 = [] := by
    rw [hclean, splitScheme, if_neg]
    rintro ⟨-, hscheme⟩
    rw [List.takeWhile_cons_of_neg (by simp)] at hscheme
    cases hscheme
  rw [origin_eq] at h
  split_ifs at h
  rw [← Option.some.inj h]
  exact hsplit

/-- Dropping a leftover context leads nowhere else, unless to no URL of HTTP. -/
theorem origin_of_normalise {product : Product} {baseUrl apiPrefix base : PyStr}
    {o : PyStr × PyStr} (h : normalise refused product baseUrl apiPrefix = some base)
    (ho : origin refused base = some o) (hscheme : o.1 ≠ []) :
    origin refused baseUrl = some o := by
  cases product with
  | jira =>
      obtain rfl := Option.some.inj h
      exact ho
  | confluence =>
      obtain ⟨split, hsplit, rfl⟩ := Option.map_eq_some_iff.1 h
      have horigin : origin refused baseUrl = some (split.scheme, split.netloc) := by
        rw [origin, hsplit]
        rfl
      split_ifs at ho
      · by_cases hempty : split.scheme = []
        · rw [hempty] at ho
          exact absurd (origin_without_scheme ho) hscheme
        · rw [origin_rebuilt horigin hempty] at ho
          rw [horigin, ho]
      · exact ho

theorem origin_of_connect {product : Product} {baseUrl apiPrefix linkBase : PyStr}
    {credential : Option PyStr} {rateLimit : RateLimitPolicy} {o : PyStr × PyStr}
    (h : connect refused product baseUrl apiPrefix linkBase credential rateLimit = some client)
    (ho : origin refused client.baseUrl = some o) (hscheme : o.1 ≠ []) :
    origin refused baseUrl = some o := by
  obtain ⟨base, hbase, rfl⟩ := Option.map_eq_some_iff.1 h
  rw [← origin_rstripSlash]
  exact origin_of_normalise hbase ho hscheme

/-- In every conversation of a client with any answers, what is sent with the credential
and what is sent for JSON goes to the scheme and authority of the configured base URL. -/
theorem credential_stays {product : Product} {baseUrl apiPrefix linkBase : PyStr}
    {credential : Option PyStr} {rateLimit : RateLimitPolicy}
    (h : connect refused product baseUrl apiPrefix linkBase credential rateLimit = some client)
    (calls : List Call) (replies : List Reply) :
    ∀ r ∈ converse refused client calls replies, Sent refused r →
      (r.headers.authorization ≠ none → origin refused r.url = origin refused baseUrl) ∧
        (r.json = true → origin refused r.url = origin refused baseUrl) := by
  intro r hr hsent
  have hsite : OnSite refused client.baseUrl r := onSite_of_mem_converse hr
  have hsame : r.json = true ∨ r.headers.authorization ≠ none →
      origin refused r.url = origin refused baseUrl := by
    intro hcarries
    obtain ⟨o, hbase, hurl⟩ := hsite hcarries
    obtain ⟨o', ho', hhttp⟩ := hsent
    obtain rfl : o = o' := Option.some.inj (hurl.symm.trans ho')
    have hscheme : o.1 ≠ [] := by
      rcases hhttp with heq | heq <;> rw [heq] <;> decide
    rw [hurl, origin_of_connect h hbase hscheme]
  exact ⟨fun hauth => hsame (Or.inr hauth), fun hjson => hsame (Or.inl hjson)⟩

end Client

/-! A site that names a base, a cursor and a download of its own and redirects the download
to another host. -/

def site : HttpClient where
  product := .confluence
  baseUrl := pyStr "https://site.example"
  credential := some (pyStr "Bearer token")
  apiPrefix := pyStr "/wiki/api/v2"
  linkBase := []
  rateLimit := {}

def steered : List Reply :=
  [.answer { status := 200
             body := .object { base := some (pyStr "https://site.example/wiki")
                               next := some (pyStr "https://evil.example/next") } },
   .answer { status := 302, redirect := some (pyStr "https://media.example/file") },
   .answer { status := 200 }]

theorem credential_stays_steered :
    ((converse (fun _ => false) site
        [.paginate (pyStr "/spaces"), .getBytes (pyStr "/download/1")] steered).map
      fun r => (r.url, r.headers.authorization)) =
        [(pyStr "https://site.example/wiki/api/v2/spaces", some (pyStr "Bearer token")),
          (pyStr "https://site.example/wiki/download/1", some (pyStr "Bearer token")),
          (pyStr "https://media.example/file", none)] ∧
      ∀ r ∈ converse (fun _ => false) site
          [.paginate (pyStr "/spaces"), .getBytes (pyStr "/download/1")] steered,
        Sent (fun _ => false) r → r.headers.authorization ≠ none →
          origin (fun _ => false) r.url =
            origin (fun _ => false) (pyStr "https://site.example/wiki/") := by
  have hconnect : connect (fun _ => false) .confluence (pyStr "https://site.example/wiki/") [] []
      (some (pyStr "Bearer token")) {} = some site := by
    have hbase : normalise (fun _ => false) .confluence
        (rstripSlash (pyStr "https://site.example/wiki/")) (pyStr "/wiki/api/v2") =
          some (pyStr "https://site.example") := by
      decide
    exact congrArg (Option.map fun base => { site with baseUrl := base }) hbase
  refine ⟨by decide, fun r hr hsent hauth => ?_⟩
  exact (credential_stays hconnect _ _ r hr hsent).1 hauth

/-! A throttle spends no attempt, and the server says how fast the wait budget is spent. What ends a
run of throttles in any case is that the backoff they would fall back on doubles each time. -/

def RateLimitPolicy.maxRequests (policy : RateLimitPolicy) : ℕ := policy.attempts + 1024

namespace HttpClient

variable (client : HttpClient) (request : Request)

theorem length_stream_le (replies : List Reply) {attempt throttles : ℕ} {waited : Float}
    (hattempt : attempt ≤ client.rateLimit.attempts) (hthrottles : throttles ≤ 1024) :
    (client.stream request attempt throttles waited replies).1.length ≤
      (client.rateLimit.attempts - attempt) + (1024 - throttles) := by
  induction replies generalizing attempt throttles waited with
  | nil =>
      unfold stream
      split_ifs
      · rw [List.length_singleton]
        omega
      · exact Nat.zero_le _
  | cons reply replies ih =>
      by_cases hlt : attempt < client.rateLimit.attempts
      · obtain ⟨rest, heq, hrest⟩ := client.stream_cons request reply replies hlt
        rw [heq, List.length_cons]
        rcases hrest with ⟨hnil, -⟩ | ⟨attempt', throttles', waited', hspends, rfl⟩
        · rw [hnil, List.length_nil]
          omega
        · rcases hspends with ⟨rfl, rfl⟩ | ⟨rfl, rfl, hroom⟩
          · have hnext : (client.stream request (attempt + 1) throttles' waited' replies).1.length ≤
                (client.rateLimit.attempts - (attempt + 1)) + (1024 - throttles') :=
              ih hlt hthrottles
            omega
          · have hnext : (client.stream request attempt' (throttles + 1) waited' replies).1.length ≤
                (client.rateLimit.attempts - attempt') + (1024 - (throttles + 1)) :=
              ih hattempt hroom
            omega
      · rw [client.stream_of_spent request _ hlt]
        exact Nat.zero_le _

/-- A loop that waits for an answer has asked once more than it was answered. -/
theorem length_stream_of_unanswered (replies : List Reply) {attempt throttles : ℕ} {waited : Float}
    (h : (client.stream request attempt throttles waited replies).2.1 = .error .unanswered) :
    (client.stream request attempt throttles waited replies).1.length = replies.length + 1 := by
  induction replies generalizing attempt throttles waited with
  | nil =>
      unfold stream at h ⊢
      split_ifs at h ⊢
      · rfl
      · cases h
  | cons reply replies ih =>
      by_cases hlt : attempt < client.rateLimit.attempts
      · obtain ⟨rest, heq, hrest⟩ := client.stream_cons request reply replies hlt
        rw [heq] at h ⊢
        rcases hrest with ⟨-, hended⟩ | ⟨attempt', throttles', waited', -, rfl⟩
        · exact absurd h hended
        · rw [List.length_cons, List.length_cons, ih h]
      · rw [client.stream_of_spent request _ hlt] at h
        cases h

end HttpClient

/-- Whatever a server does, one call asks no more often than its policy says, and it returns or
raises once that many replies are in. -/
theorem stream_bounded (client : HttpClient) (request : Request) (replies : List Reply) :
    (client.stream request 0 0 0 replies).1.length ≤ client.rateLimit.maxRequests ∧
      (client.rateLimit.maxRequests ≤ replies.length →
        (client.stream request 0 0 0 replies).2.1 ≠ .error .unanswered) := by
  have hbound : (client.stream request 0 0 0 replies).1.length ≤ client.rateLimit.maxRequests :=
    client.length_stream_le request replies (Nat.zero_le _) (Nat.zero_le _)
  refine ⟨hbound, fun hreplies hunanswered => ?_⟩
  have hlength := client.length_stream_of_unanswered request replies hunanswered
  omega

def throttle : Reply := .answer { status := 429, retryAfter := some 1e-300 }

theorem stream_bounded_throttled :
    (site.stream ⟨site.baseUrl, ⟨[], none⟩, true⟩ 0 0 0
      (List.replicate site.rateLimit.maxRequests throttle)).2.1 ≠ .error .unanswered :=
  (stream_bounded site _ _).2 List.length_replicate.ge

end IcebergSST.Http
