import Pgfy.Site.State
import Pgfy.Security.Totp

/-! # Signing in

    The handlers of setup, sign-in, codes, enrolment and reset. A public
    dashboard (HTTPS) never has a session without a code; a tunnel's may have
    one from the password alone while no factor is enrolled. A handler is a
    program that ends by responding; the rate limits and the slots for password
    hashing answer as they please. A request that is not a JSON object of the
    fields a handler knows has no body.
-/

namespace Pgfy

open Calendar Program

/-! ### What handlers have in common -/

/-- Responds with an error code. -/
def failure (status : ℕ) (code : String) : Run Unit := Prog.ask (.respond status code)

/-- Responds with what was asked for. -/
def respond (status : ℕ) : Run Unit := Prog.ask (.respond status "")

def randomToken : Run String := Prog.ask .token

/-- The value of a cookie that can be a token. -/
def tokenCookie (value : Option String) : Option String := value.filter (·.utf8ByteSize = 43)

/-- What proves that a request comes from the dashboard's own pages. -/
structure Csrf where
  session : String
  scope : String
deriving DecidableEq

/-- Nothing a rollback would have to undo is written during an update. -/
def unlessMaintenance (next : Run Unit) : Run Unit := do
  let on ← (store .maintenance : Run (Except Err Bool))
  match on with
  | .ok false => next
  | _ => failure 503 "maintenance"

/-- Goes on with the session's token if the request has a session and, unless
    it only reads, its forgery token. -/
def authorize (cfg : Config) (session : Option String) (csrf : Option Csrf) (reads : Bool)
    (next : String → Run Unit) : Run Unit :=
  match tokenCookie session with
  | none => failure 401 "unauthorized"
  | some token => do
    let now ← clock
    let row ← (auth (.session ⟨token⟩ cfg.scope now) : Run (Except Err (Option SessionRow)))
    match row with
    | .error _ => failure 503 "metadata_unavailable"
    | .ok none => failure 401 "unauthorized"
    | .ok (some _) =>
      if !reads && csrf ≠ some ⟨token, cfg.scope⟩ then failure 403 "csrf_rejected"
      else next token

/-! ### Checking a code -/

/-- The check of a code against the stored factor. -/
def verifyFactor (mac : Mac) (code : Text) (now : Instant) (secret : Sealed TotpSecret)
    (last : ℤ) : Except Err ℤ :=
  if secret.context ≠ .adminFactor then .error .token
  else
    match verifyTOTP mac secret.plain code now last with
    | .reused _ => .error .codeReused
    | .wrong => .error .code
    | .valid step => .ok step

/-- The check of an enrolment's first code. Any step will do. -/
def verifyEnrolment (mac : Mac) (hash : Digest String) (code : Text) (now : Instant) :
    Payload → Except Err ConfirmedEnrolment
  | .enrolment v =>
    if v.context ≠ .enrolment hash then .error .token
    else
      match verifyTOTP mac v.plain.secret code now 0 with
      | .valid step => .ok ⟨v.plain, ⟨.adminFactor, v.plain.secret⟩, step⟩
      | _ => .error .code
  | _ => .error .token

/-! ### The password step -/

structure Credentials where
  token : String
  email : String
  password : String

/-- Hashes a password that is long enough. -/
def hashPassword (password : String) : Run (Option PasswordHash) :=
  if password.length < 15 ∨ 256 < password.utf8ByteSize then Prog.ret none
  else do
    let salt ← randomToken
    Prog.ret (some ⟨salt, password⟩)

def verifyPassword (hash : PasswordHash) (password : String) : Bool :=
  password.utf8ByteSize ≤ 256 && hash.password = password

/-- Lets a request that will hash a password through, or not. -/
def beginAuth (next : Run Unit) : Run Unit := do
  let allowed ← (Prog.ask .allow : Run Bool)
  if allowed then do
    let slot ← (Prog.ask .allow : Run Bool)
    if slot then next else failure 429 "auth_busy"
  else failure 429 "rate_limited"

/-- Seals a fresh secret into an enrolment. -/
def startEnrolment (cfg : Config) (kind : EnrolmentKind)
    (start : Digest String → Payload → Instant → AuthCall Unit) : Run Unit := do
  let secret ← (Prog.ask .totpSecret : Run TotpSecret)
  let enrol ← randomToken
  let now ← clock
  let payload := .enrolment ⟨.enrolment ⟨enrol⟩, ⟨kind, cfg.scope, secret⟩⟩
  let begun ← (auth (start ⟨enrol⟩ payload now) : Run (Except Err Unit))
  match begun with
  | .ok _ => respond 200
  | .error .setup => failure 409 "setup_rejected"
  | .error .token => failure 409 "reset_rejected"
  | .error _ => failure 503 "metadata_unavailable"

def setup (cfg : Config) (body : Option Credentials) : Run Unit :=
  beginAuth (match body with
    | none => failure 400 "invalid_request"
    | some input => do
      let email ← (Prog.ask (.normalizeEmail input.email) : Run (String × Bool))
      if !email.2 || input.token.utf8ByteSize ≠ 43 then failure 400 "invalid_setup"
      else do
        let hash ← hashPassword input.password
        match hash with
        | none => failure 400 "invalid_password"
        | some hash =>
          -- a public dashboard never has an administrator without a second factor
          if cfg.mode = .https then
            startEnrolment cfg (.setup email.1 hash) (.beginEnrolment ⟨input.token⟩)
          else do
            let token ← randomToken
            let now ← clock
            let done ← (auth (.setup ⟨input.token⟩ email.1 hash ⟨token⟩ cfg.scope now) :
              Run (Except Err Unit))
            match done with
            | .ok _ => respond 201
            | .error .setup => failure 409 "setup_rejected"
            | .error _ => failure 503 "metadata_unavailable")

/-- What follows a password that was right when it was read. -/
def afterPassword (cfg : Config) (email : String) (hash : PasswordHash) : Run Unit := do
  let current ← (auth .factor : Run (Except Err (Bool × PasswordHash)))
  match current with
  | .error _ => failure 503 "metadata_unavailable"
  | .ok (enrolled, current) =>
    -- a reset completed while the password was being checked
    if current ≠ hash then failure 401 "invalid_credentials"
    else if enrolled then do
      let pending ← randomToken
      let now ← clock
      let begun ← (auth (.beginPending ⟨pending⟩ current cfg.scope now) : Run (Except Err Unit))
      match begun with
      | .ok _ => respond 200
      | .error _ => failure 503 "metadata_unavailable"
    -- an administrator from before second factors enrols one now
    else if cfg.mode = .https then startEnrolment cfg (.upgrade email ⟨current⟩) .beginUpgrade
    else do
      let token ← randomToken
      let now ← clock
      let done ← (auth (.addSession ⟨token⟩ cfg.scope current now) : Run (Except Err Unit))
      match done with
      | .ok _ => respond 200
      | .error .credentialsChanged => failure 401 "invalid_credentials"
      | .error _ => failure 503 "metadata_unavailable"

def login (cfg : Config) (body : Option Credentials) : Run Unit :=
  beginAuth (match body with
    | none => failure 400 "invalid_request"
    | some input => do
      let email ← (Prog.ask (.normalizeEmail input.email) : Run (String × Bool))
      let hash ← (auth (.password email.1) : Run (Except Err (Option PasswordHash)))
      match hash with
      | .error _ => failure 503 "metadata_unavailable"
      | .ok none => failure 401 "invalid_credentials"
      | .ok (some hash) =>
        if verifyPassword hash input.password then afterPassword cfg email.1 hash
        else failure 401 "invalid_credentials")

/-- Takes the token issued over SSH and a new password; nothing changes until a
    code from the new factor confirms it. -/
def startReset (cfg : Config) (body : Option Credentials) : Run Unit :=
  unlessMaintenance (beginAuth (match body with
    | none => failure 400 "invalid_request"
    | some input =>
      if input.token.utf8ByteSize ≠ 43 then failure 409 "reset_rejected"
      else do
        let hash ← hashPassword input.password
        match hash with
        | none => failure 400 "invalid_password"
        | some hash => startEnrolment cfg (.reset hash) (.beginReset ⟨input.token⟩)))

/-! ### The code step -/

/-- The response to a code that was not accepted. -/
def codeFailure : Err → Run Unit
  | .code => failure 401 "invalid_code"
  | .codeReused => failure 401 "code_reused"
  | .codeLocked _ => failure 429 "code_locked"
  | .maintenance => failure 503 "maintenance"
  | _ => failure 503 "metadata_unavailable"

/-- The response to the outcome of a code, which may be a failure that was
    committed; `expired` is for a step that is over. -/
def codeOutcome (expired : String) : Except Err (Except Err String) → Run Unit
  | .ok (.ok _) => respond 200
  | .ok (.error .token) => failure 401 expired
  | .ok (.error e) => codeFailure e
  | .error .token => failure 401 expired
  | .error e => codeFailure e

/-- Completes the password step with a code from the enrolled factor. -/
def confirmCode (mac : Mac) (cfg : Config) (pending : Option String) (body : Option Text) :
    Run Unit :=
  match tokenCookie pending with
  | none => failure 401 "code_expired"
  | some pending => do
    let allowed ← (Prog.ask .allow : Run Bool)
    if allowed then
      match body with
      | none => failure 400 "invalid_request"
      | some code => do
        let now ← clock
        let session ← randomToken
        let outcome ← (auth (.confirmPending ⟨pending⟩ ⟨session⟩ cfg.scope now
          (verifyFactor mac code now)) : Run (Except Err (Except Err String)))
        codeOutcome "code_expired" outcome
    else failure 429 "rate_limited"

/-- Turns an enrolment into a signed-in administrator. -/
def confirmEnrolment (mac : Mac) (cfg : Config) (enrol : Option String) (requestID : String)
    (body : Option Text) : Run Unit :=
  match tokenCookie enrol with
  | none => failure 401 "enrol_expired"
  | some enrol => do
    let allowed ← (Prog.ask .allow : Run Bool)
    if allowed then
      match body with
      | none => failure 400 "invalid_request"
      | some code => do
        let now ← clock
        let session ← randomToken
        let outcome ← (auth (.confirmEnrolment ⟨enrol⟩ ⟨session⟩ cfg.scope requestID now
          (verifyEnrolment mac ⟨enrol⟩ code now)) : Run (Except Err (Except Err String)))
        codeOutcome "enrol_expired" outcome
    else failure 429 "rate_limited"

/-- Whether an enrolment for an administrator without a factor comes too late. -/
def staleUpgrade : EnrolmentKind → Run Bool
  | .upgrade _ _ => do
    let current ← (auth .factor : Run (Except Err (Bool × PasswordHash)))
    match current with
    | .ok (false, _) => Prog.ret false
    | _ => Prog.ret true
  | _ => Prog.ret false

/-- Shows the key again after a reload, while the step lives. -/
def currentEnrolment (enrol : Option String) : Run Unit :=
  match tokenCookie enrol with
  | none => failure 401 "enrol_expired"
  | some enrol => do
    let now ← clock
    let payload ← (auth (.enrolmentPayload ⟨enrol⟩ now) : Run (Except Err Payload))
    match payload with
    | .ok (.enrolment v) =>
      if v.context ≠ .enrolment ⟨enrol⟩ then failure 401 "enrol_expired"
      else do
        let stale ← staleUpgrade v.plain.kind
        if stale then failure 401 "enrol_expired"
        else do
          let usable ← (auth (.enrolmentUsable ⟨enrol⟩ v.plain.kind) : Run (Except Err Bool))
          match usable with
          | .ok true => respond 200
          | _ => failure 401 "enrol_expired"
    | _ => failure 401 "enrol_expired"

/-! ### Leaving -/

/-- Ends one unfinished step. -/
def abandonStep (cookie : Option String) : Run Unit :=
  match tokenCookie cookie with
  | none => Prog.ret ()
  | some value => do
    let now ← clock
    let _ ← (auth (.abandon ⟨value⟩ now) : Run (Except Err Unit))
    Prog.ret ()

def abandonSteps (pending enrol : Option String) : Run Unit := do
  abandonStep pending
  abandonStep enrol

def abandon (pending enrol : Option String) : Run Unit := do
  abandonSteps pending enrol
  respond 204

def session (cfg : Config) (cookie : Option String) : Run Unit :=
  authorize cfg cookie none true (fun _ => respond 200)

def logout (cfg : Config) (cookie : Option String) (csrf : Option Csrf)
    (pending enrol : Option String) : Run Unit :=
  authorize cfg cookie csrf false (fun token => do
    let done ← (auth (.logout ⟨token⟩) : Run (Except Err Unit))
    match done with
    | .error _ => failure 503 "metadata_unavailable"
    | .ok _ => do
      abandonSteps pending enrol
      respond 204)

/-! ### All of them -/

/-- A request of signing in or out. -/
inductive SignInRequest where
  | setup (body : Option Credentials)
  | login (body : Option Credentials)
  | reset (body : Option Credentials)
  | code (pending : Option String) (body : Option Text)
  | confirmEnrolment (enrol : Option String) (requestID : String) (body : Option Text)
  | currentEnrolment (enrol : Option String)
  | abandon (pending enrol : Option String)
  | session (cookie : Option String)
  | logout (cookie : Option String) (csrf : Option Csrf) (pending enrol : Option String)

/-- The program a request starts. -/
def SignInRequest.handler (mac : Mac) (cfg : Config) : SignInRequest → Run Unit
  | setup body => Pgfy.setup cfg body
  | login body => Pgfy.login cfg body
  | reset body => startReset cfg body
  | code pending body => confirmCode mac cfg pending body
  | confirmEnrolment enrol requestID body => Pgfy.confirmEnrolment mac cfg enrol requestID body
  | currentEnrolment enrol => Pgfy.currentEnrolment enrol
  | abandon pending enrol => Pgfy.abandon pending enrol
  | session cookie => Pgfy.session cfg cookie
  | logout cookie csrf pending enrol => Pgfy.logout cfg cookie csrf pending enrol

end Pgfy
