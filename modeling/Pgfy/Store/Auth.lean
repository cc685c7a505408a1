import Pgfy.Store.Deletion

/-! # Statements of signing in

    Every short-lived credential is a row of one table: the setup and reset
    tokens shown in a terminal, an enrolment waiting for its first code, and a
    password step waiting for its code. Using one spends an attempt inside the
    statement that checks it. A wrong code is reported only after what it costs
    has been committed, so these transactions answer with an outcome of their
    own inside a commit.
-/

namespace Pgfy

open Calendar

def minute : ℤ := 60 * second

def setupTTL : ℤ := 30 * minute

def resetTTL : ℤ := 30 * minute

def enrolTTL : ℤ := 10 * minute

def pendingTTL : ℤ := 5 * minute

def codeTries : ℕ := 5

def sessionTTL : ℤ := 12 * hour

/-- How long a token lives. -/
def Purpose.ttl : Purpose → ℤ
  | setup => setupTTL
  | reset => resetTTL
  | enrol => enrolTTL
  | pending => pendingTTL

/-- How many attempts a token has. -/
def Purpose.tries : Purpose → ℕ
  | setup => 1
  | reset => 1
  | enrol => codeTries
  | pending => codeTries

/-- Usable for a purpose: not consumed, not expired, with an attempt left. -/
def AuthToken.Usable (t : AuthToken) (purpose : Purpose) (now : Instant) : Prop :=
  t.purpose = purpose ∧ t.consumedAt = none ∧ unix now < t.expiresAt ∧ t.attempts < t.maxAttempts

instance (t : AuthToken) (purpose : Purpose) (now : Instant) :
    Decidable (t.Usable purpose now) := by
  unfold AuthToken.Usable; infer_instance

/-- The token with one more attempt. -/
def AuthToken.tried (t : AuthToken) : AuthToken := { t with attempts := t.attempts + 1 }

/-- What a verified enrolment code yields. -/
structure ConfirmedEnrolment where
  enrolment : Enrolment
  /-- the secret, sealed as the administrator's own -/
  secretSealed : Sealed TotpSecret
  step : ℤ
deriving DecidableEq

/-- How long the lock set by a number of wrong codes in a row is. The shift is
    one of 64-bit integers and may overflow. -/
def lockTime (failures : ℕ) : ℤ :=
  let lock := (minute * 2 ^ (failures / 5 - 1)).bmod (2 ^ 64)
  if 7 < failures / 5 ∨ hour < lock then hour else lock

/-- What a wrong code does to the administrator's row. -/
def Administrator.countFailure (a : Administrator) (now : Instant) : Administrator :=
  let failures := a.codeFailures + 1
  let locked := if failures % 5 = 0 then unix (now + lockTime failures) else 0
  { a with
    codeFailures := failures
    codeLockedUntil := if 0 < locked then locked else a.codeLockedUntil }

namespace Database

/-! ### Tokens -/

/-- Deletes tokens; a token whose parent goes has no parent any more. -/
def deleteTokens (drop : AuthToken → Bool) (db : Database) : Database :=
  { db with
    authTokens := (db.authTokens.filter (fun t => !drop t)).map (fun t => { t with
      parentID := t.parentID.filter (fun id =>
        !db.authTokens.any (fun p => drop p && p.id = id)) }) }

/-- Adds a token, after pruning those that expired a day ago. Token hashes are
    unique and a parent must exist. -/
def issue (purpose : Purpose) (hash : Digest String) (ttl : ℤ) (max : ℕ) (parent : Option ℕ)
    (payload : Payload) (now : Instant) (db : Database) : Except Err Database :=
  let db := db.deleteTokens (fun t => t.expiresAt < unix (now - 24 * hour))
  if db.authTokens.any (·.tokenHash = hash) then .error .driver
  else if !(parent.all (fun id => db.authTokens.any (·.id = id))) then .error .driver
  else .ok { db with
    authTokens := db.authTokens ++
      [{ id := db.nextToken, purpose := purpose, tokenHash := hash,
         expiresAt := unix (now + ttl), maxAttempts := max, parentID := parent,
         payload := payload, createdAt := unix now }]
    nextToken := db.nextToken + 1 }

/-- An attempt is spent on a token. -/
def spent (hash : Digest String) (db : Database) : Database :=
  { db with authTokens := Table.modify AuthToken.tokenHash hash AuthToken.tried db.authTokens }

@[simp] theorem spent_administrator (hash : Digest String) (db : Database) :
    (db.spent hash).administrator = db.administrator := rfl

/-- Spends one attempt on a usable token. -/
def useToken (purpose : Purpose) (hash : Digest String) (now : Instant) (db : Database) :
    Option (AuthToken × Database) :=
  match Table.find AuthToken.tokenHash hash db.authTokens with
  | none => none
  | some t =>
    if t.Usable purpose now then some (t.tried, db.spent hash) else none

def consume (id : ℕ) (now : Instant) (db : Database) : Database :=
  { db with
    authTokens := Table.modify AuthToken.id id
      (fun t => { t with consumedAt := some (unix now) }) db.authTokens }

/-- Consumes every reset token that has not been used. -/
def consumeResets (now : Instant) (db : Database) : Database :=
  { db with
    authTokens := db.authTokens.map (fun t =>
      if t.purpose = .reset ∧ t.consumedAt = none then { t with consumedAt := some (unix now) }
      else t) }

/-- Consumes a token whose last attempt just failed. -/
def spendFailure (t : AuthToken) (now : Instant) (db : Database) : Database :=
  if t.maxAttempts ≤ t.attempts then db.consume t.id now else db

/-- The sessions left once those that have expired or belong to another scope are gone. -/
def keptSessions (scope : String) (now : Instant) (db : Database) : List SessionRow :=
  db.sessions.filter (fun r => !(r.expiresAt ≤ unix now || r.scope ≠ scope))

/-- Opens a session. -/
def addSession (sessionHash : Digest String) (scope : String) (now : Instant) (db : Database) :
    Except Err Database :=
  if (db.keptSessions scope now).any (·.tokenHash = sessionHash) then .error .driver
  else if db.administrator.isNone then .error .driver
  else .ok { db with
    sessions := db.keptSessions scope now ++ [⟨sessionHash, scope, unix (now + sessionTTL)⟩] }

/-! ### Setup -/

/-- The setup token for the installer's terminal; a live one blocks another. -/
def newSetupToken (hash : Digest String) (now : Instant) (db : Database) : Except Err Database :=
  if db.administrator.isSome then .error .setup
  else if db.authTokens.any (fun t => t.purpose = .setup && t.consumedAt.isNone &&
      unix now < t.expiresAt) then .error .tokenActive
  else db.issue .setup hash setupTTL 1 none .empty now

/-- Creates the administrator in one step. -/
def setup (token : Digest String) (email : String) (passwordHash : PasswordHash)
    (sessionHash : Digest String) (scope : String) (now : Instant) (db : Database) :
    Except Err Database :=
  match db.useToken .setup token now with
  | none => .error .setup
  | some (t, db) =>
    if db.administrator.isSome then .error .setup
    else
      ({ db with
        administrator := some { email := email, passwordHash := passwordHash,
                                createdAt := unix now } }.consume t.id now).addSession
        sessionHash scope now

/-- Spends the setup token and starts an enrolment. -/
def beginEnrolment (token enrolHash : Digest String) (payload : Payload) (now : Instant)
    (db : Database) : Except Err Database :=
  match db.useToken .setup token now with
  | none => .error .setup
  | some (t, db) =>
    if db.administrator.isSome then .error .setup
    else (db.consume t.id now).issue .enrol enrolHash enrolTTL codeTries (some t.id) payload now

/-- Starts an enrolment after a password step. -/
def beginUpgrade (enrolHash : Digest String) (payload : Payload) (now : Instant) (db : Database) :
    Except Err Database :=
  db.issue .enrol enrolHash enrolTTL codeTries none payload now

/-! ### Reset -/

/-- A reset token, which replaces any earlier unused one. -/
def newResetToken (hash : Digest String) (now : Instant) (db : Database) : Except Err Database :=
  if db.administrator.isNone then .error .setup
  else (db.consumeResets now).issue .reset hash resetTTL 1 none .empty now

/-- Spends the reset token and starts an enrolment. -/
def beginReset (token enrolHash : Digest String) (payload : Payload) (now : Instant)
    (db : Database) : Except Err Database :=
  match db.useToken .reset token now with
  | none => .error .token
  | some (t, db) =>
    (db.consume t.id now).issue .enrol enrolHash enrolTTL codeTries (some t.id) payload now

/-! ### Confirming an enrolment -/

/-- A live enrolment's payload, without spending an attempt. -/
def enrolmentPayload (enrolHash : Digest String) (now : Instant) (db : Database) :
    Except Err Payload :=
  match Table.find AuthToken.tokenHash enrolHash db.authTokens with
  | some t => if t.Usable .enrol now then .ok t.payload else .error .token
  | none => .error .token

/-- The number of the newest reset token there is. -/
def newestReset (db : Database) : ℕ :=
  ((db.authTokens.filter (·.purpose = .reset)).map AuthToken.id).foldl max 0

/-- What the consumed parent of a token was for. -/
def parentPurpose (t : AuthToken) (db : Database) : Option Purpose :=
  t.parentID.bind (fun id =>
    (db.authTokens.find? (fun p => p.id = id ∧ p.consumedAt.isSome)).map AuthToken.purpose)

/-- What became of a verified enrolment: it can no longer apply, it is refused
    for now, or the database with it. -/
inductive Applied where
  | stale
  | refused (e : Err)
  | done (db : Database)

/-- Sets the credentials a reset brings and ends every session. -/
def setCredentials (c : ConfirmedEnrolment) (passwordHash : PasswordHash) (db : Database) :
    Database :=
  { db with
    administrator := db.administrator.map (fun a => { a with
      passwordHash := passwordHash, totpSecretSealed := some c.secretSealed,
      totpLastStep := c.step, codeFailures := 0, codeLockedUntil := 0 })
    sessions := [] }

/-- Ends every step that is under way, except the enrolment that confirms a
    reset and the reset token that one came from. -/
def endSteps (id parent : ℕ) (now : Instant) (db : Database) : Database :=
  (db.deleteTokens (fun o =>
    o.purpose ≠ Purpose.setup && o.id ≠ id && o.id ≠ parent)).consumeResets now

/-- The part of a confirmation that depends on the kind of enrolment. -/
def applyEnrolment (t : AuthToken) (c : ConfirmedEnrolment) (now : Instant) (db : Database) :
    Applied :=
  match c.enrolment.kind with
  | .setup email passwordHash =>
    if db.parentPurpose t ≠ some .setup ∨ db.administrator.isSome then .stale
    else .done { db with
      administrator := some { email := email, passwordHash := passwordHash, createdAt := unix now,
                              totpSecretSealed := some c.secretSealed, totpLastStep := c.step } }
  | .upgrade _ binding =>
    match db.administrator with
    | none => .stale
    | some a =>
      if ⟨a.passwordHash⟩ ≠ binding then .stale
      -- only the first enrolment can set a factor; a later one is a reset
      else if a.totpSecretSealed.isSome then .stale
      else .done { db with
        administrator := some { a with
          totpSecretSealed := some c.secretSealed, totpLastStep := c.step, codeFailures := 0,
          codeLockedUntil := 0 } }
  | .reset passwordHash =>
    match t.parentID with
    | none => .stale
    | some parent =>
      if db.parentPurpose t ≠ some .reset ∨ db.administrator.isNone then .stale
      else if db.newestReset ≠ parent then .stale
      else if db.maintenance then .refused .maintenance
      else .done ((db.setCredentials c passwordHash).endSteps t.id parent now)

/-- The audit row of a confirmed enrolment. -/
def enrolmentAudit (kind : EnrolmentKind) (requestID : String) (now : Instant) : AuditEntry :=
  { at_ := unix now, adminID := 1
    action := match kind with
      | .reset _ => "auth.reset"
      | _ => "auth.second_factor"
    target := "", requestID := requestID
    detail := match kind with
      | .setup _ _ => "\x7b\"kind\":\"setup\"\x7d"
      | .reset _ => "\x7b\"kind\":\"reset\"\x7d"
      | .upgrade _ _ => "\x7b\"kind\":\"upgrade\"\x7d" }

/-- The notice a kind of enrolment gives. -/
def noticeOf : EnrolmentKind → EventKind × String
  | .reset _ => (.adminReset, "Administrator access was reset over SSH")
  | _ => (.secondFactorEnrolled, "A second factor was enrolled for the administrator")

/-- Records the notice of a confirmed enrolment. -/
def enrolmentEvent (kind : EnrolmentKind) (now : Instant) (db : Database) : Database :=
  db.recordAlertEvent (noticeOf kind).1 (toString (unix now)) (noticeOf kind).2
    "If this was not you, reset access over SSH with pgfyctl reset-admin." now

/-- The part of a confirmation every kind has: it is told, opens a session and
    uses the enrolment up. -/
def finishEnrolment (t : AuthToken) (kind : EnrolmentKind) (sessionHash : Digest String)
    (scope requestID : String) (now : Instant) (db : Database) :
    Except Err (Except Err String × Database) :=
  let db := { db with audit := db.audit ++ [enrolmentAudit kind requestID now] }
  match (db.enrolmentEvent kind now).addSession sessionHash scope now with
  | .error e => .error e
  | .ok db =>
    match db.administrator with
    | none => .error .driver
    | some a => .ok (.ok a.email, db.consume t.id now)

/-- Completes setup, a reset or an upgrade. -/
def confirmEnrolment (enrolHash sessionHash : Digest String) (scope requestID : String)
    (now : Instant) (verify : Payload → Except Err ConfirmedEnrolment) (db : Database) :
    Except Err (Except Err String × Database) :=
  match db.useToken .enrol enrolHash now with
  | none => .error .token
  | some (t, db) =>
    match verify t.payload with
    | .error e => .ok (.error e, db.spendFailure t now)
    | .ok c =>
      -- the access mode, origin or generation changed since the enrolment began
      if c.enrolment.scope ≠ "" ∧ c.enrolment.scope ≠ scope then
        .ok (.error .token, db.consume t.id now)
      else
        match db.applyEnrolment t c now with
        | .stale => .ok (.error .token, db.consume t.id now)
        | .refused e => .error e
        | .done db =>
          db.finishEnrolment t c.enrolment.kind sessionHash scope requestID now

/-! ### The password and code steps -/

/-- Whether a factor is enrolled, and the current password hash. -/
def factor (db : Database) : Except Err (Bool × PasswordHash) :=
  match db.administrator with
  | none => .error .driver
  | some a => .ok (a.totpSecretSealed.isSome, a.passwordHash)

/-- The password hash of an email; none is "no rows". -/
def password (email : String) (db : Database) : Option PasswordHash :=
  (db.administrator.filter (·.email = email)).map Administrator.passwordHash

/-- Opens a password-only session, if the password is still the one that was
    verified and there is no factor. -/
def addPasswordSession (sessionHash : Digest String) (scope : String) (passwordHash : PasswordHash)
    (now : Instant) (db : Database) : Except Err Database :=
  match db.administrator with
  | none => .error .driver
  | some a =>
    if a.passwordHash ≠ passwordHash ∨ a.totpSecretSealed.isSome then .error .credentialsChanged
    else db.addSession sessionHash scope now

/-- Records a password step that was passed. -/
def beginPending (pendingHash : Digest String) (passwordHash : PasswordHash) (scope : String)
    (now : Instant) (db : Database) : Except Err Database :=
  db.issue .pending pendingHash pendingTTL codeTries none (.pending ⟨passwordHash⟩ scope) now

/-- Counts a wrong code; every tenth in a row is told. -/
def countFailure (a : Administrator) (now : Instant) (db : Database) : Database :=
  let a := Administrator.countFailure a now
  let db := { db with administrator := some a }
  if a.codeFailures % 10 = 0 then
    db.recordAlertEvent .secondFactorFailures (toString (unix now)) "Repeated wrong sign-in codes"
      ("Someone who knows the administrator password entered many wrong codes. " ++
        "If it was not you, change the password with pgfyctl reset-admin.") now
  else db

/-- Checks a code against the stored factor. -/
def confirmPending (pendingHash sessionHash : Digest String) (scope : String) (now : Instant)
    (verify : Sealed TotpSecret → ℤ → Except Err ℤ) (db : Database) :
    Except Err (Except Err String × Database) :=
  match db.administrator with
  | none => .error .token
  | some a =>
    if unix now < a.codeLockedUntil then .error (.codeLocked (a.codeLockedUntil - unix now))
    else
      match db.useToken .pending pendingHash now with
      | none => .error .token
      | some (t, db) =>
        match a.totpSecretSealed with
        | none => .ok (.error .token, db.consume t.id now)
        | some secret =>
          -- the password or the scope changed: this password step no longer counts
          if t.payload ≠ .pending ⟨a.passwordHash⟩ scope then
            .ok (.error .token, db.consume t.id now)
          else
            match verify secret a.totpLastStep with
            | .error e =>
              let db := db.spendFailure t now
              .ok (.error e, if e = .code then db.countFailure a now else db)
            | .ok step =>
              if a.totpLastStep < step then
                match { db with
                  administrator := some { a with
                    totpLastStep := step, codeFailures := 0, codeLockedUntil := 0 } }.addSession
                    sessionHash scope now with
                | .error e => .error e
                | .ok db => .ok (.ok a.email, db.consume t.id now)
              -- a code is accepted once: a replay updates nothing
              else .ok (.error .codeReused, db)

/-! ### Leaving -/

/-- Ends a pending or enrolment step. -/
def abandon (hash : Digest String) (now : Instant) (db : Database) : Database :=
  { db with
    authTokens := db.authTokens.map (fun t =>
      if t.tokenHash = hash ∧ (t.purpose = .pending ∨ t.purpose = .enrol) ∧ t.consumedAt = none
      then { t with consumedAt := some (unix now) } else t) }

/-- The session of a token, if it is accepted. -/
def session (token : Digest String) (scope : String) (now : Instant) (db : Database) :
    Option SessionRow :=
  if db.administrator.isNone then none
  else db.sessions.find? (fun r => r.tokenHash = token ∧ r.scope = scope ∧ unix now < r.expiresAt)

def logout (token : Digest String) (db : Database) : Database :=
  { db with sessions := db.sessions.filter (·.tokenHash ≠ token) }

/-- The read-only form of the checks a confirmation makes. -/
def enrolmentUsable (enrolHash : Digest String) (kind : EnrolmentKind) (db : Database) : Bool :=
  match Table.find AuthToken.tokenHash enrolHash db.authTokens with
  | none => false
  | some t =>
    match kind with
    | .setup _ _ => db.administrator.isNone
    | .reset _ => db.administrator.isSome && t.parentID = some db.newestReset
    | .upgrade _ _ => true

end Database

/-! ### What becomes of the tokens -/

/-- The same row later on: attempts are only spent, a consumed token stays
    consumed, and a parent may be lost. -/
structure AuthToken.Later (t t' : AuthToken) : Prop where
  id : t'.id = t.id
  purpose : t'.purpose = t.purpose
  tokenHash : t'.tokenHash = t.tokenHash
  expiresAt : t'.expiresAt = t.expiresAt
  maxAttempts : t'.maxAttempts = t.maxAttempts
  payload : t'.payload = t.payload
  attempts : t.attempts ≤ t'.attempts
  consumed : t.consumedAt ≠ none → t'.consumedAt ≠ none
  parentID : t'.parentID = t.parentID ∨ t'.parentID = none

theorem AuthToken.Later.refl (t : AuthToken) : t.Later t :=
  ⟨rfl, rfl, rfl, rfl, rfl, rfl, le_rfl, fun h => h, Or.inl rfl⟩

theorem AuthToken.Later.trans {t₁ t₂ t₃ : AuthToken} (h : t₁.Later t₂) (h' : t₂.Later t₃) :
    t₁.Later t₃ where
  id := h'.id.trans h.id
  purpose := h'.purpose.trans h.purpose
  tokenHash := h'.tokenHash.trans h.tokenHash
  expiresAt := h'.expiresAt.trans h.expiresAt
  maxAttempts := h'.maxAttempts.trans h.maxAttempts
  payload := h'.payload.trans h.payload
  attempts := h.attempts.trans h'.attempts
  consumed := fun hc => h'.consumed (h.consumed hc)
  parentID := by
    rcases h'.parentID with hp | hp
    · rw [hp]
      exact h.parentID
    · exact Or.inr hp

theorem AuthToken.Later.used (t : AuthToken) : t.Later t.tried :=
  ⟨rfl, rfl, rfl, rfl, rfl, rfl, Nat.le_succ _, fun h => h, Or.inl rfl⟩

theorem AuthToken.Later.spent (t : AuthToken) (at_ : ℤ) :
    t.Later { t with consumedAt := some at_ } :=
  ⟨rfl, rfl, rfl, rfl, rfl, rfl, le_rfl, fun _ => by simp, Or.inl rfl⟩

/-- Every row of `ts'` is a row of `ts` later on, in the same order; rows may be gone. -/
def Aged (ts ts' : List AuthToken) : Prop :=
  List.SublistForall₂ (fun t' t => AuthToken.Later t t') ts' ts

theorem Aged.refl (ts : List AuthToken) : Aged ts ts :=
  List.sublistForall₂_iff.mpr ⟨ts, List.forall₂_same.mpr (fun t _ => .refl t), List.Sublist.refl ts⟩

theorem Aged.trans {ts₁ ts₂ ts₃ : List AuthToken} (h : Aged ts₁ ts₂) (h' : Aged ts₂ ts₃) :
    Aged ts₁ ts₃ := by
  have : IsTrans AuthToken (fun t' t => AuthToken.Later t t') := ⟨fun _ _ _ h₁ h₂ => h₂.trans h₁⟩
  have hall : List.SublistForall₂ (fun t' t => AuthToken.Later t t') ts₃ ts₁ :=
    IsTrans.trans ts₃ ts₂ ts₁ h' h
  exact hall

theorem Aged.map {ts : List AuthToken} {f : AuthToken → AuthToken}
    (h : ∀ t : AuthToken, t.Later (f t)) : Aged ts (ts.map f) := by
  refine List.sublistForall₂_iff.mpr ⟨ts, ?_, List.Sublist.refl ts⟩
  rw [List.forall₂_map_left_iff]
  exact List.forall₂_same.mpr (fun t _ => h t)

theorem Aged.mem {ts ts' : List AuthToken} (h : Aged ts ts') {t' : AuthToken} (ht : t' ∈ ts') :
    ∃ t ∈ ts, t.Later t' := by
  obtain ⟨kept, hforall, hsub⟩ := List.sublistForall₂_iff.mp h
  obtain ⟨t, hmem, hlater⟩ := Table.exists_right hforall ht
  exact ⟨t, hsub.subset hmem, hlater⟩

/-- What a row keeps, the rows that are left keep, in order. -/
theorem Aged.map_sublist {ts ts' : List AuthToken} {α : Type} (f : AuthToken → α)
    (hf : ∀ t t', AuthToken.Later t t' → f t' = f t) (h : Aged ts ts') :
    (ts'.map f).Sublist (ts.map f) := by
  obtain ⟨kept, hforall, hsub⟩ := List.sublistForall₂_iff.mp h
  have hmap : ts'.map f = kept.map f := by
    clear hsub h
    induction hforall with
    | nil => rfl
    | cons hl _ ih => rw [List.map_cons, List.map_cons, hf _ _ hl, ih]
  rw [hmap]
  exact hsub.map f

/-- Every row of `ts` is there later on, and no other one. -/
structure Stays (ts ts' : List AuthToken) : Prop where
  aged : Aged ts ts'
  kept : ∀ t ∈ ts, ∃ t' ∈ ts', t.Later t'

theorem Stays.refl (ts : List AuthToken) : Stays ts ts := ⟨.refl ts, fun t ht => ⟨t, ht, .refl t⟩⟩

theorem Stays.trans {ts₁ ts₂ ts₃ : List AuthToken} (h : Stays ts₁ ts₂) (h' : Stays ts₂ ts₃) :
    Stays ts₁ ts₃ := by
  refine ⟨h.aged.trans h'.aged, fun t ht => ?_⟩
  obtain ⟨t₂, ht₂, hl⟩ := h.kept t ht
  obtain ⟨t₃, ht₃, hl'⟩ := h'.kept t₂ ht₂
  exact ⟨t₃, ht₃, hl.trans hl'⟩

theorem Stays.map {ts : List AuthToken} {f : AuthToken → AuthToken}
    (h : ∀ t : AuthToken, t.Later (f t)) : Stays ts (ts.map f) :=
  ⟨.map h, fun t ht => ⟨f t, List.mem_map_of_mem ht, h t⟩⟩

namespace Database

variable {db db' : Database}

theorem aged_deleteTokens (drop : AuthToken → Bool) :
    Aged db.authTokens (db.deleteTokens drop).authTokens := by
  refine List.sublistForall₂_iff.mpr ⟨db.authTokens.filter (fun t => !drop t), ?_,
    List.filter_sublist⟩
  rw [deleteTokens, List.forall₂_map_left_iff]
  refine List.forall₂_same.mpr (fun t _ => ⟨rfl, rfl, rfl, rfl, rfl, rfl, le_rfl, fun h => h, ?_⟩)
  cases t.parentID with
  | none => exact Or.inl rfl
  | some id =>
    by_cases hgone : db.authTokens.any (fun p => drop p && p.id = id) = true
    · exact Or.inr (by simp [Option.filter, hgone])
    · exact Or.inl (by simp [Option.filter, hgone])

theorem stays_modify {κ : Type} [DecidableEq κ] {key : AuthToken → κ} {k : κ}
    {f : AuthToken → AuthToken} (h : ∀ t : AuthToken, t.Later (f t)) (ts : List AuthToken) :
    Stays ts (Table.modify key k f ts) := by
  apply Stays.map
  intro t
  split
  · exact h t
  · exact .refl t

theorem stays_consume (id : ℕ) (now : Instant) (db : Database) :
    Stays db.authTokens (db.consume id now).authTokens :=
  stays_modify (fun t => .spent t _) _

theorem stays_consumeResets (now : Instant) (db : Database) :
    Stays db.authTokens (db.consumeResets now).authTokens := by
  apply Stays.map
  intro t
  split
  · exact .spent t _
  · exact .refl t

theorem stays_abandon (hash : Digest String) (now : Instant) (db : Database) :
    Stays db.authTokens (db.abandon hash now).authTokens := by
  apply Stays.map
  intro t
  split
  · exact .spent t _
  · exact .refl t

/-- A statement that only spends tokens. -/
def OnlyTokens (db db' : Database) : Prop :=
  ∃ tokens, Stays db.authTokens tokens ∧ db' = { db with authTokens := tokens }

theorem onlyTokens_consume (db : Database) (id : ℕ) (now : Instant) :
    OnlyTokens db (db.consume id now) :=
  ⟨_, stays_consume id now db, rfl⟩

theorem onlyTokens_spendFailure (db : Database) (t : AuthToken) (now : Instant) :
    OnlyTokens db (db.spendFailure t now) := by
  unfold spendFailure
  split
  · exact onlyTokens_consume db t.id now
  · exact ⟨_, .refl _, rfl⟩

/-- The row `issue` adds. -/
def newToken (db : Database) (purpose : Purpose) (hash : Digest String) (ttl : ℤ) (max : ℕ)
    (parent : Option ℕ) (payload : Payload) (now : Instant) : AuthToken :=
  { id := db.nextToken, purpose := purpose, tokenHash := hash, expiresAt := unix (now + ttl),
    maxAttempts := max, parentID := parent, payload := payload, createdAt := unix now }

/-- Exactly the tokens that expired a day before are gone. -/
structure Pruned (now : Instant) (ts ts' : List AuthToken) : Prop where
  aged : Aged ts ts'
  live : ∀ t ∈ ts', unix (now - 24 * hour) ≤ t.expiresAt
  kept : ∀ t ∈ ts, unix (now - 24 * hour) ≤ t.expiresAt → ∃ t' ∈ ts', t.Later t'

theorem Pruned.after {now : Instant} {ts₁ ts₂ ts₃ : List AuthToken} (hall : Stays ts₁ ts₂)
    (h : Pruned now ts₂ ts₃) : Pruned now ts₁ ts₃ where
  aged := hall.aged.trans h.aged
  live := h.live
  kept := by
    intro t ht hlive
    obtain ⟨t₂, ht₂, hl⟩ := hall.kept t ht
    obtain ⟨t₃, ht₃, hl'⟩ := h.kept t₂ ht₂ (by rwa [hl.expiresAt])
    exact ⟨t₃, ht₃, hl.trans hl'⟩

/-- One row is added under the next number; of the others exactly those that expired
    a day before go. -/
def Adds (now : Instant) (row : AuthToken) (db db' : Database) : Prop :=
  ∃ tokens, Pruned now db.authTokens tokens ∧ (∀ t ∈ tokens, t.tokenHash ≠ row.tokenHash) ∧
    db' = { db with authTokens := tokens ++ [row], nextToken := db.nextToken + 1 }

theorem issue_ok {purpose : Purpose} {hash : Digest String} {ttl : ℤ} {max : ℕ}
    {parent : Option ℕ} {payload : Payload} {now : Instant}
    (h : db.issue purpose hash ttl max parent payload now = .ok db') :
    db.Adds now (db.newToken purpose hash ttl max parent payload now) db' := by
  unfold issue at h
  dsimp only at h
  split at h
  · cases h
  next hhash =>
  split at h
  · cases h
  cases h
  refine ⟨_, ⟨aged_deleteTokens _, ?_, ?_⟩, by simpa [newToken] using hhash, rfl⟩
  · intro t ht
    obtain ⟨t₀, ht₀, rfl⟩ := List.mem_map.mp ht
    simpa using (List.mem_filter.mp ht₀).2
  intro t ht hlive
  have hkeep : t ∈ db.authTokens.filter
      (fun t => !decide (t.expiresAt < unix (now - 24 * hour))) := by
    rw [List.mem_filter]
    exact ⟨ht, by simpa using hlive⟩
  exact ⟨_, List.mem_map_of_mem hkeep, ⟨rfl, rfl, rfl, rfl, rfl, rfl, le_rfl, fun h => h, by
    cases t.parentID with
    | none => exact Or.inl rfl
    | some id =>
      by_cases hgone : db.authTokens.any (fun p =>
          decide (p.expiresAt < unix (now - 24 * hour)) && p.id = id) = true
      · exact Or.inr (by simp [Option.filter, hgone])
      · exact Or.inl (by simp [Option.filter, hgone])⟩⟩

theorem useToken_some {purpose : Purpose} {hash : Digest String} {now : Instant} {t' : AuthToken}
    (h : db.useToken purpose hash now = some (t', db')) :
    ∃ t, Table.find AuthToken.tokenHash hash db.authTokens = some t ∧ t.Usable purpose now ∧
      t' = t.tried ∧ db' = db.spent hash := by
  unfold useToken at h
  split at h
  · cases h
  next t hfind =>
  split at h
  · next husable =>
    cases h
    exact ⟨t, hfind, husable, rfl, rfl⟩
  · cases h

theorem onlyTokens_useToken {purpose : Purpose} {hash : Digest String} {now : Instant}
    {t : AuthToken} (h : db.useToken purpose hash now = some (t, db')) : OnlyTokens db db' := by
  obtain ⟨-, -, -, -, rfl⟩ := useToken_some h
  exact ⟨_, stays_modify (fun t => .used t) _, rfl⟩

end Database

/-! ### What the steps of signing in do -/

namespace Database

variable {db db' : Database} {sessionHash : Digest String} {scope : String} {now : Instant}

/-- The row a session starts as. -/
def newSession (sessionHash : Digest String) (scope : String) (now : Instant) : SessionRow :=
  ⟨sessionHash, scope, unix (now + sessionTTL)⟩

theorem mem_keptSessions {r : SessionRow} :
    r ∈ db.keptSessions scope now ↔ r ∈ db.sessions ∧ unix now < r.expiresAt ∧ r.scope = scope := by
  simp [keptSessions]

theorem addSession_ok (h : db.addSession sessionHash scope now = .ok db') :
    db' = { db with
      sessions := db.keptSessions scope now ++ [newSession sessionHash scope now] } := by
  unfold addSession at h
  split at h
  · cases h
  split at h
  · cases h
  cases h
  rfl

theorem setup_ok {token : Digest String} {email : String} {passwordHash : PasswordHash}
    (h : db.setup token email passwordHash sessionHash scope now = .ok db') :
    db.administrator = none ∧ ∃ tokens, Stays db.authTokens tokens ∧ db' = { db with
      administrator := some { email := email, passwordHash := passwordHash, createdAt := unix now }
      authTokens := tokens
      sessions := db.keptSessions scope now ++ [newSession sessionHash scope now] } := by
  unfold setup at h
  split at h
  · cases h
  next t db₁ huse =>
  split at h
  · cases h
  next hnone =>
  obtain ⟨tokens, hstays, rfl⟩ := onlyTokens_useToken huse
  rw [addSession_ok h]
  exact ⟨by simpa using hnone, _, hstays.trans (stays_modify (fun t => .spent t _) _), rfl⟩

theorem addPasswordSession_ok {passwordHash : PasswordHash}
    (h : db.addPasswordSession sessionHash scope passwordHash now = .ok db') :
    (∃ a, db.administrator = some a ∧ a.passwordHash = passwordHash ∧
      a.totpSecretSealed = none) ∧ db' = { db with
        sessions := db.keptSessions scope now ++ [newSession sessionHash scope now] } := by
  unfold addPasswordSession at h
  split at h
  · cases h
  next a ha =>
  split at h
  · cases h
  next hsame =>
  rw [not_or, not_not] at hsame
  exact ⟨⟨a, ha, hsame.1, by simpa using hsame.2⟩, addSession_ok h⟩

/-- An enrolment or a reset begins: a token is used up and an enrolment issued. -/
theorem consume_issue_ok {purpose : Purpose} {token enrolHash : Digest String}
    {payload : Payload} {t : AuthToken} {db₁ : Database}
    (huse : db.useToken purpose token now = some (t, db₁))
    (h : (db₁.consume t.id now).issue .enrol enrolHash enrolTTL codeTries (some t.id) payload now =
      .ok db') :
    ∃ t ∈ db.authTokens, t.Usable purpose now ∧
      db.Adds now (db.newToken .enrol enrolHash enrolTTL codeTries (some t.id) payload now)
        db' := by
  obtain ⟨t₀, hfind, husable, rfl, rfl⟩ := useToken_some huse
  obtain ⟨tokens, hpruned, hfresh, rfl⟩ := issue_ok h
  refine ⟨t₀, (Table.find_eq_some hfind).1, husable, tokens, ?_, hfresh, rfl⟩
  -- the token is used, then used up, then the others are pruned
  exact Pruned.after (stays_modify AuthToken.Later.used db.authTokens)
    (Pruned.after (stays_modify (fun t => .spent t _) _) hpruned)

theorem beginEnrolment_ok {token enrolHash : Digest String} {payload : Payload}
    (h : db.beginEnrolment token enrolHash payload now = .ok db') :
    db.administrator = none ∧ ∃ t ∈ db.authTokens, t.Usable .setup now ∧
      db.Adds now (db.newToken .enrol enrolHash enrolTTL codeTries (some t.id) payload now)
        db' := by
  unfold beginEnrolment at h
  split at h
  · cases h
  next t db₁ huse =>
  split at h
  · cases h
  next hnone =>
  have hadds := consume_issue_ok huse h
  obtain ⟨_, -, rfl⟩ := onlyTokens_useToken huse
  exact ⟨by simpa using hnone, hadds⟩

theorem beginReset_ok {token enrolHash : Digest String} {payload : Payload}
    (h : db.beginReset token enrolHash payload now = .ok db') :
    ∃ t ∈ db.authTokens, t.Usable .reset now ∧
      db.Adds now (db.newToken .enrol enrolHash enrolTTL codeTries (some t.id) payload now)
        db' := by
  unfold beginReset at h
  split at h
  · cases h
  next t db₁ huse => exact consume_issue_ok huse h

/-- How a check of a code ends, for the administrator `a` and the token `t`. -/
inductive CodeOutcome (db : Database) (a : Administrator) (t : AuthToken)
    (tokens : List AuthToken) (sessionHash : Digest String) (scope : String) (now : Instant)
    (verify : Sealed TotpSecret → ℤ → Except Err ℤ) : Except Err String → Database → Prop
  /-- the password step no longer counts -/
  | rejected : CodeOutcome db a t tokens sessionHash scope now verify (.error .token)
      { db with authTokens := tokens }
  | wrong (secret : Sealed TotpSecret) (hs : a.totpSecretSealed = some secret)
      (hv : verify secret a.totpLastStep = .error .code)
      (hp : t.payload = .pending ⟨a.passwordHash⟩ scope) :
      CodeOutcome db a t tokens sessionHash scope now verify (.error .code)
        ({ db with authTokens := tokens }.countFailure a now)
  /-- a correct code that was used before, or a factor that cannot be read -/
  | refused (secret : Sealed TotpSecret) (hs : a.totpSecretSealed = some secret) (e : Err)
      (he : e ≠ .code) (hv : ∀ step, verify secret a.totpLastStep = .ok step →
        step ≤ a.totpLastStep) :
      CodeOutcome db a t tokens sessionHash scope now verify (.error e)
        { db with authTokens := tokens }
  | accepted (secret : Sealed TotpSecret) (hs : a.totpSecretSealed = some secret)
      (hp : t.payload = .pending ⟨a.passwordHash⟩ scope) (step : ℤ)
      (hv : verify secret a.totpLastStep = .ok step) (hlt : a.totpLastStep < step) :
      CodeOutcome db a t tokens sessionHash scope now verify (.ok a.email)
        { db with
          administrator := some { a with
            totpLastStep := step, codeFailures := 0, codeLockedUntil := 0 }
          authTokens := tokens
          sessions := db.keptSessions scope now ++ [newSession sessionHash scope now] }

/-- One more attempt on the token is spent. -/
def AttemptSpent (hash : Digest String) (t : AuthToken) (ts tokens : List AuthToken) : Prop :=
  Stays ts tokens ∧ ((ts.map AuthToken.id).Nodup →
    ∀ t' ∈ tokens, t'.tokenHash = hash → t'.id = t.id → t.attempts + 1 ≤ t'.attempts)

theorem AttemptSpent.later {hash : Digest String} {t : AuthToken}
    {ts tokens tokens' : List AuthToken} (h : AttemptSpent hash t ts tokens)
    (h' : Stays tokens tokens') :
    AttemptSpent hash t ts tokens' := by
  refine ⟨h.1.trans h', fun hn t' ht' hhash hid => ?_⟩
  obtain ⟨t₀, hmem, hl⟩ := h'.aged.mem ht'
  exact (h.2 hn t₀ hmem (hl.tokenHash ▸ hhash) (hl.id ▸ hid)).trans hl.attempts

theorem attemptSpent_useToken {hash : Digest String} {t : AuthToken} {ts : List AuthToken}
    (ht : t ∈ ts) :
    AttemptSpent hash t ts (Table.modify AuthToken.tokenHash hash AuthToken.tried ts) := by
  refine ⟨stays_modify (fun t => .used t) _, fun hn t' ht' hhash hid => ?_⟩
  obtain ⟨t₀, hmem, rfl⟩ := Table.mem_modify.mp ht'
  split at hhash
  · next heq =>
    rw [if_pos heq] at hid ⊢
    rw [List.inj_on_of_nodup_map hn hmem ht hid]
    exact le_refl _
  · next hne => exact absurd hhash hne

theorem confirmPending_ok {pendingHash : Digest String}
    {verify : Sealed TotpSecret → ℤ → Except Err ℤ} {r : Except Err String}
    (h : db.confirmPending pendingHash sessionHash scope now verify = .ok (r, db')) :
    ∃ a t, db.administrator = some a ∧ a.codeLockedUntil ≤ unix now ∧
      Table.find AuthToken.tokenHash pendingHash db.authTokens = some t ∧
      t.Usable .pending now ∧ ∃ tokens, AttemptSpent pendingHash t db.authTokens tokens ∧
        CodeOutcome db a t tokens sessionHash scope now verify r db' := by
  unfold confirmPending at h
  split at h
  · cases h
  next a ha =>
  split at h
  · cases h
  next hlock =>
  split at h
  · cases h
  next t' db₁ huse =>
  obtain ⟨t, hfind, husable, rfl, rfl⟩ := useToken_some huse
  have hspent : AttemptSpent pendingHash t db.authTokens _ :=
    attemptSpent_useToken (Table.find_eq_some hfind).1
  refine ⟨a, t, ha, not_lt.mp hlock, hfind, husable, ?_⟩
  split at h
  · cases h
    exact ⟨_, hspent.later (stays_modify (fun t => .spent t _) _), .rejected⟩
  next secret hs =>
  split at h
  · cases h
    exact ⟨_, hspent.later (stays_modify (fun t => .spent t _) _), .rejected⟩
  next hne =>
  have hpayload : t.payload = .pending ⟨a.passwordHash⟩ scope := not_not.mp hne
  split at h
  · -- the code is wrong, or the factor cannot be read
    next e hv =>
    cases h
    obtain ⟨tokens, haged, hdb⟩ := onlyTokens_spendFailure (db.spent pendingHash) t.tried now
    rw [hdb]
    refine ⟨tokens, hspent.later haged, ?_⟩
    by_cases he : e = .code
    · subst he
      rw [if_pos rfl]
      exact .wrong secret hs hv hpayload
    · rw [if_neg he]
      exact .refused secret hs e he (fun step hok => by rw [hv] at hok; cases hok)
  · next step hv =>
    split at h
    · next hlt =>
      split at h
      · cases h
      next db₂ hadd =>
      cases h
      rw [addSession_ok hadd]
      exact ⟨_, hspent.later (stays_modify (fun t => .spent t _) _),
        .accepted secret hs hpayload step hv hlt⟩
    · next hle =>
      cases h
      refine ⟨_, hspent, .refused secret hs .codeReused (by simp) ?_⟩
      intro step' hok
      rw [hv] at hok
      cases hok
      omega

end Database

namespace Database

variable {db db' : Database} {sessionHash : Digest String} {scope : String} {now : Instant}

theorem le_newestReset (db : Database) {t : AuthToken} (ht : t ∈ db.authTokens)
    (hp : t.purpose = .reset) : t.id ≤ db.newestReset := by
  have hmem : t.id ∈ (db.authTokens.filter (·.purpose = .reset)).map AuthToken.id :=
    List.mem_map_of_mem (List.mem_filter.mpr ⟨ht, by simpa using hp⟩)
  rw [newestReset, List.foldl_eq_foldr]
  exact List.le_max_of_le hmem le_rfl

theorem parentPurpose_eq_some {t : AuthToken} {q : Purpose} (h : db.parentPurpose t = some q) :
    ∃ p ∈ db.authTokens, t.parentID = some p.id ∧ p.purpose = q ∧ p.consumedAt ≠ none := by
  unfold parentPurpose at h
  obtain ⟨id, hid, h⟩ := Option.bind_eq_some_iff.mp h
  obtain ⟨p, hp, rfl⟩ := Option.map_eq_some_iff.mp h
  have hsome := List.find?_some hp
  rw [decide_eq_true_eq] at hsome
  refine ⟨p, List.mem_of_find?_eq_some hp, by rw [hid, hsome.1], rfl, ?_⟩
  exact Option.isSome_iff_ne_none.mp hsome.2

/-- Everything but setup tokens is used up. -/
def Exhausted (tokens : List AuthToken) : Prop :=
  ∀ t ∈ tokens, t.purpose = .setup ∨ t.consumedAt ≠ none

/-- How the confirmation of an enrolment ends, for the enrolment's token `t`. -/
inductive EnrolOutcome (db : Database) (t : AuthToken) (tokens : List AuthToken)
    (sessionHash : Digest String) (scope : String) (now : Instant)
    (verify : Payload → Except Err ConfirmedEnrolment) : Except Err String → Database → Prop
  /-- a wrong code, or an enrolment that can no longer apply -/
  | refused (e : Err) (hstays : Stays db.authTokens tokens) :
      EnrolOutcome db t tokens sessionHash scope now verify (.error e)
      { db with authTokens := tokens }
  | setup (c : ConfirmedEnrolment) (hv : verify t.payload = .ok c) (email : String)
      (passwordHash : PasswordHash) (hk : c.enrolment.kind = .setup email passwordHash)
      (hscope : c.enrolment.scope = "" ∨ c.enrolment.scope = scope)
      (hnone : db.administrator = none) (hstays : Stays db.authTokens tokens)
      (entry : AuditEntry) (event : AlertEvent) (hevent : event.kind = .secondFactorEnrolled) :
      EnrolOutcome db t tokens sessionHash scope now verify (.ok email)
        { db with
          administrator := some {
            email := email, passwordHash := passwordHash, createdAt := unix now,
            totpSecretSealed := some c.secretSealed, totpLastStep := c.step }
          authTokens := tokens
          sessions := db.keptSessions scope now ++ [newSession sessionHash scope now]
          audit := db.audit ++ [entry], alertEvents := db.alertEvents ++ [event] }
  | upgrade (c : ConfirmedEnrolment) (hv : verify t.payload = .ok c) (a : Administrator)
      (ha : db.administrator = some a) (email : String)
      (hk : c.enrolment.kind = .upgrade email ⟨a.passwordHash⟩)
      (hscope : c.enrolment.scope = "" ∨ c.enrolment.scope = scope)
      (hnone : a.totpSecretSealed = none) (hstays : Stays db.authTokens tokens)
      (entry : AuditEntry) (event : AlertEvent) (hevent : event.kind = .secondFactorEnrolled) :
      EnrolOutcome db t tokens sessionHash scope now verify (.ok a.email)
        { db with
          administrator := some { a with
            totpSecretSealed := some c.secretSealed, totpLastStep := c.step, codeFailures := 0,
            codeLockedUntil := 0 }
          authTokens := tokens
          sessions := db.keptSessions scope now ++ [newSession sessionHash scope now]
          audit := db.audit ++ [entry], alertEvents := db.alertEvents ++ [event] }
  | reset (c : ConfirmedEnrolment) (hv : verify t.payload = .ok c) (a : Administrator)
      (ha : db.administrator = some a) (passwordHash : PasswordHash)
      (hk : c.enrolment.kind = .reset passwordHash)
      (hscope : c.enrolment.scope = "" ∨ c.enrolment.scope = scope)
      (hm : db.maintenance = false) (p : AuthToken) (hp : p ∈ db.authTokens)
      (hparent : t.parentID = some p.id) (hpurpose : p.purpose = .reset)
      (hnewest : ∀ o ∈ db.authTokens, o.purpose = .reset → o.id ≤ p.id)
      (hex : (db.authTokens.map AuthToken.id).Nodup → Exhausted tokens) (entry : AuditEntry)
      (event : AlertEvent) (hevent : event.kind = .adminReset) :
      EnrolOutcome db t tokens sessionHash scope now verify (.ok a.email)
        { db with
          administrator := some { a with
            passwordHash := passwordHash, totpSecretSealed := some c.secretSealed,
            totpLastStep := c.step, codeFailures := 0, codeLockedUntil := 0 }
          authTokens := tokens
          sessions := [newSession sessionHash scope now]
          audit := db.audit ++ [entry], alertEvents := db.alertEvents ++ [event] }

theorem aged_endSteps (id parent : ℕ) (now : Instant) (db : Database) :
    Aged db.authTokens (db.endSteps id parent now).authTokens :=
  (aged_deleteTokens _).trans (stays_consumeResets now _).aged

/-- After a reset only setup tokens and used ones are left. -/
theorem exhausted_reset {t p : AuthToken} (hn : (db.authTokens.map AuthToken.id).Nodup)
    (hp : p ∈ db.authTokens) (hc : p.consumedAt ≠ none) (now : Instant) :
    Exhausted ((db.endSteps t.id p.id now).consume t.id now).authTokens := by
  intro o ho
  obtain ⟨o₁, ho₁, rfl⟩ := Table.mem_modify.mp ho
  by_cases hid : o₁.id = t.id
  · exact Or.inr (by simp [hid])
  rw [if_neg hid]
  obtain ⟨o₂, ho₂, rfl⟩ := List.mem_map.mp ho₁
  obtain ⟨o₃, ho₃, rfl⟩ := List.mem_map.mp ho₂
  obtain ⟨hmem, hkept⟩ := List.mem_filter.mp ho₃
  -- what is left is a setup token, the enrolment, or the reset token it came from
  have hid₃ : o₃.id ≠ t.id := by
    split at hid <;> exact hid
  by_cases hsetup : o₃.purpose = .setup
  · left
    split <;> exact hsetup
  · right
    have hpid : o₃.id = p.id := by simpa [hsetup, hid₃] using hkept
    obtain rfl := List.inj_on_of_nodup_map hn hmem hp hpid
    split
    · simp
    · exact hc

theorem finishEnrolment_ok {t : AuthToken} {kind : EnrolmentKind} {requestID : String}
    {r : Except Err String}
    (h : db.finishEnrolment t kind sessionHash scope requestID now = .ok (r, db')) :
    ∃ a entry event, db.administrator = some a ∧ r = .ok a.email ∧
      event.kind = (noticeOf kind).1 ∧
      db' = { db with
        authTokens := (db.consume t.id now).authTokens
        sessions := db.keptSessions scope now ++ [newSession sessionHash scope now]
        audit := db.audit ++ [entry]
        alertEvents := db.alertEvents ++ [event] } := by
  unfold finishEnrolment at h
  dsimp only at h
  split at h
  · cases h
  next db₁ hadd =>
  have hdb₁ := addSession_ok hadd
  split at h
  · cases h
  next a ha =>
  cases h
  subst hdb₁
  exact ⟨a, _, _, ha, rfl, rfl, rfl⟩

theorem newestReset_spent (hash : Digest String) (db : Database) :
    (db.spent hash).newestReset = db.newestReset := by
  have hids : ((db.spent hash).authTokens.filter (·.purpose = .reset)).map AuthToken.id =
      (db.authTokens.filter (·.purpose = .reset)).map AuthToken.id := by
    simp only [spent, Table.modify, List.filter_map, List.map_map]
    congr 1
    · funext t
      by_cases ht : t.tokenHash = hash <;> simp [ht, AuthToken.tried]
    · congr 1
      funext t
      by_cases ht : t.tokenHash = hash <;> simp [ht, AuthToken.tried]
  exact congrArg (List.foldl max 0) hids

theorem confirmEnrolment_ok {enrolHash : Digest String} {requestID : String}
    {verify : Payload → Except Err ConfirmedEnrolment} {r : Except Err String}
    (h : db.confirmEnrolment enrolHash sessionHash scope requestID now verify = .ok (r, db')) :
    ∃ t, Table.find AuthToken.tokenHash enrolHash db.authTokens = some t ∧ t.Usable .enrol now ∧
      ∃ tokens, Aged db.authTokens tokens ∧
        EnrolOutcome db t tokens sessionHash scope now verify r db' := by
  unfold confirmEnrolment at h
  split at h
  · cases h
  next t' db₁ huse =>
  obtain ⟨t, hfind, husable, rfl, rfl⟩ := useToken_some huse
  refine ⟨t, hfind, husable, ?_⟩
  have hused : Stays db.authTokens (db.spent enrolHash).authTokens :=
    stays_modify AuthToken.Later.used db.authTokens
  split at h
  · cases h
    obtain ⟨tokens, hstays, hdb⟩ := onlyTokens_spendFailure (db.spent enrolHash) t.tried now
    rw [hdb]
    exact ⟨tokens, (hused.trans hstays).aged, .refused _ (hused.trans hstays)⟩
  next c hok =>
  have hv : verify t.payload = .ok c := hok
  have hconsumed := hused.trans (stays_consume t.id now (db.spent enrolHash))
  split at h
  · cases h
    exact ⟨_, hconsumed.aged, .refused _ hconsumed⟩
  next hne =>
  have hscope : c.enrolment.scope = "" ∨ c.enrolment.scope = scope := by
    by_cases hempty : c.enrolment.scope = ""
    · exact Or.inl hempty
    · exact Or.inr (not_not.mp (fun hother => hne ⟨hempty, hother⟩))
  split at h
  · cases h
    exact ⟨_, hconsumed.aged, .refused _ hconsumed⟩
  · cases h
  next db₂ happly =>
  obtain ⟨a', entry, event, ha', rfl, hevent, rfl⟩ := finishEnrolment_ok h
  unfold applyEnrolment at happly
  split at happly
  · next email passwordHash hk =>
    split at happly
    · cases happly
    next hgo =>
    cases happly
    cases ha'
    rw [hk] at hevent
    have hnone : db.administrator = none := by simpa using (not_or.mp hgo).2
    exact ⟨_, hconsumed.aged,
      .setup c hv email passwordHash hk hscope hnone hconsumed entry event hevent⟩
  · next email binding hk =>
    split at happly
    · cases happly
    next a hsome =>
    have ha : db.administrator = some a := hsome
    split at happly
    · cases happly
    next hbinding =>
    split at happly
    · cases happly
    next hnone =>
    cases happly
    cases ha'
    rw [hk] at hevent
    have hkind : c.enrolment.kind = .upgrade email ⟨a.passwordHash⟩ := by
      rw [hk, not_not.mp hbinding]
    exact ⟨_, hconsumed.aged,
      .upgrade c hv a ha email hkind hscope (by simpa using hnone) hconsumed entry event hevent⟩
  · next passwordHash hk =>
    split at happly
    · cases happly
    next parent hparent =>
    split at happly
    · cases happly
    next hgo =>
    split at happly
    · cases happly
    next hnewest =>
    split at happly
    · cases happly
    next hm =>
    rw [hk] at hevent
    rw [not_not] at hnewest
    obtain ⟨p₁, hp₁, hid, hreset, hc⟩ := parentPurpose_eq_some (not_not.mp (not_or.mp hgo).1)
    obtain rfl : parent = p₁.id := Option.some.inj (hparent.symm.trans hid)
    obtain ⟨p, hp, hl⟩ := hused.aged.mem hp₁
    have hn₁ := fun hn : (db.authTokens.map AuthToken.id).Nodup =>
      hn.sublist (hused.aged.map_sublist AuthToken.id (fun _ _ hl => hl.id))
    have hmax : ∀ o ∈ db.authTokens, o.purpose = .reset → o.id ≤ p.id := by
      intro o ho hor
      rw [← hl.id, ← hnewest, newestReset_spent]
      exact le_newestReset db ho hor
    have hset : (db.spent enrolHash).setCredentials c passwordHash = { db.spent enrolHash with
        administrator := db.administrator.map (fun a => { a with
          passwordHash := passwordHash, totpSecretSealed := some c.secretSealed,
          totpLastStep := c.step, codeFailures := 0, codeLockedUntil := 0 })
        sessions := [] } := rfl
    rw [hset] at happly
    cases hadmin : db.administrator with
    | none => exact absurd (by simp [hadmin]) (not_or.mp hgo).2
    | some a =>
      rw [hadmin, Option.map_some] at happly
      cases happly
      cases ha'
      have haged := (aged_endSteps t.id p₁.id now (db.spent enrolHash)).trans
        (stays_consume t.id now _).aged
      exact ⟨_, hused.aged.trans haged,
        .reset c hv a hadmin passwordHash hk hscope (by simpa [spent] using hm) p hp
          (hparent.trans (by rw [hl.id])) (hl.purpose ▸ hreset) hmax
          (fun hn => exhausted_reset (hn₁ hn) hp₁ hc now) entry event hevent⟩

end Database

/-! ### The calls -/

/-- The statements of signing in, each under its function's name. -/
inductive AuthCall : Type → Type
  | newSetupToken (hash : Digest String) (now : Instant) : AuthCall Unit
  | setup (token : Digest String) (email : String) (passwordHash : PasswordHash)
      (sessionHash : Digest String) (scope : String) (now : Instant) : AuthCall Unit
  | beginEnrolment (token enrolHash : Digest String) (payload : Payload) (now : Instant) :
      AuthCall Unit
  | beginUpgrade (enrolHash : Digest String) (payload : Payload) (now : Instant) : AuthCall Unit
  | newResetToken (hash : Digest String) (now : Instant) : AuthCall Unit
  | beginReset (token enrolHash : Digest String) (payload : Payload) (now : Instant) :
      AuthCall Unit
  | enrolmentPayload (enrolHash : Digest String) (now : Instant) : AuthCall Payload
  | enrolmentUsable (enrolHash : Digest String) (kind : EnrolmentKind) : AuthCall Bool
  /-- the outcome inside a commit is the error that is reported, or the email -/
  | confirmEnrolment (enrolHash sessionHash : Digest String) (scope requestID : String)
      (now : Instant) (verify : Payload → Except Err ConfirmedEnrolment) :
      AuthCall (Except Err String)
  | factor : AuthCall (Bool × PasswordHash)
  | password (email : String) : AuthCall (Option PasswordHash)
  | addSession (sessionHash : Digest String) (scope : String) (passwordHash : PasswordHash)
      (now : Instant) : AuthCall Unit
  | beginPending (pendingHash : Digest String) (passwordHash : PasswordHash) (scope : String)
      (now : Instant) : AuthCall Unit
  | confirmPending (pendingHash sessionHash : Digest String) (scope : String) (now : Instant)
      (verify : Sealed TotpSecret → ℤ → Except Err ℤ) : AuthCall (Except Err String)
  | abandon (hash : Digest String) (now : Instant) : AuthCall Unit
  | session (token : Digest String) (scope : String) (now : Instant) :
      AuthCall (Option SessionRow)
  | logout (token : Digest String) : AuthCall Unit

/-- What a statement of signing in does to the database. -/
def AuthCall.run {β : Type} : AuthCall β → Database → Except Err (β × Database)
  | newSetupToken hash now, db => (db.newSetupToken hash now).map ((), ·)
  | setup token email passwordHash sessionHash scope now, db =>
    (db.setup token email passwordHash sessionHash scope now).map ((), ·)
  | beginEnrolment token enrolHash payload now, db =>
    (db.beginEnrolment token enrolHash payload now).map ((), ·)
  | beginUpgrade enrolHash payload now, db => (db.beginUpgrade enrolHash payload now).map ((), ·)
  | newResetToken hash now, db => (db.newResetToken hash now).map ((), ·)
  | beginReset token enrolHash payload now, db =>
    (db.beginReset token enrolHash payload now).map ((), ·)
  | enrolmentPayload enrolHash now, db => (db.enrolmentPayload enrolHash now).map (·, db)
  | enrolmentUsable enrolHash kind, db => .ok (db.enrolmentUsable enrolHash kind, db)
  | confirmEnrolment enrolHash sessionHash scope requestID now verify, db =>
    db.confirmEnrolment enrolHash sessionHash scope requestID now verify
  | factor, db => db.factor.map (·, db)
  | password email, db => .ok (db.password email, db)
  | addSession sessionHash scope passwordHash now, db =>
    (db.addPasswordSession sessionHash scope passwordHash now).map ((), ·)
  | beginPending pendingHash passwordHash scope now, db =>
    (db.beginPending pendingHash passwordHash scope now).map ((), ·)
  | confirmPending pendingHash sessionHash scope now verify, db =>
    db.confirmPending pendingHash sessionHash scope now verify
  | abandon hash now, db => .ok ((), db.abandon hash now)
  | session token scope now, db => .ok (db.session token scope now, db)
  | logout token, db => .ok ((), db.logout token)

end Pgfy
