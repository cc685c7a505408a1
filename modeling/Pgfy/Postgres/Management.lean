import Pgfy.Calls

/-! # Managing PostgreSQL

    The operations of the management connection as programs over single
    statements. Each statement may fail before or after it took effect, so an
    operation of several statements may stop between any two of them. The
    deadline of an operation ends the waiting inside it; a statement cut short
    by it is a statement that failed.
-/

namespace Pgfy

open Calendar Program

/-- Goes on as the outcome of a step says. -/
def Go.attempt {β : Type} (x : Go β) : Go (Except Err β) := Action.attempt x

/-- An error, unless a condition holds. -/
def Go.ensure (c : Bool) (e : Err) : Go Unit := if c then pure () else Action.fail e

/-! ### Names and passwords -/

/-- Between 32 and 64 letters, digits, dashes and underscores. -/
def validPassword (password : String) : Bool :=
  (32 ≤ password.length && password.length ≤ 64) &&
    password.toList.all (fun c => c.isAlphanum || c == '_' || c == '-')

/-! ### Roles -/

/-- Creates the restricted project role, or verifies that an existing one has
    the expected attributes and sets the recorded password on it again. -/
def ensureRole (name : Text) (password : String) (connectionLimit : ℤ) : Go Unit := do
  Go.ensure (validName name && validPassword password) (.message "invalid role identity")
  match ← pg (.roleInfo name) with
  | some info =>
    Go.ensure (info.login && !info.super && !info.createdb && !info.createrole) .roleMismatch
    pg (.setPassword name password)
  | none =>
    Go.ensure (1 ≤ connectionLimit && connectionLimit ≤ 100) (.message "invalid connection limit")
    pg (.createRole name password connectionLimit)

/-- Ends every client session of one project role on its database. -/
def terminateSessions (database role : Text) : Go Unit := pg (.terminateSessions database role)

/-- Makes new sessions of the project role read-only, or resets that, and ends
    its current sessions. -/
def setWritesFrozen (database role : Text) (frozen : Bool) : Go Unit := do
  Go.ensure (validName database && validName role) (.message "invalid project identity")
  pg (.setReadOnly role frozen)
  terminateSessions database role

/-! ### Limits -/

/-- Limits as the role settings PostgreSQL stores. -/
def limitSettings (l : Limits) : List (String × String) :=
  [("statement_timeout", toString l.statementTimeoutMS ++ "ms"),
    ("idle_in_transaction_session_timeout", toString l.idleInTransactionMS ++ "ms"),
    ("temp_file_limit",
      if l.tempFileLimitKB = -1 then "-1" else toString l.tempFileLimitKB ++ "kB"),
    ("lock_timeout", toString l.lockTimeoutMS ++ "ms")]

/-- The names of the four settings. -/
def limitKeys : List String :=
  ["statement_timeout", "idle_in_transaction_session_timeout", "temp_file_limit", "lock_timeout"]

/-- `-1`, or up to ten digits and a unit. -/
def settingValue (value : String) : Bool :=
  value = "-1" || ["ms".toList, "kB".toList].any (fun unit =>
    let digits := value.toList.take (value.length - 2)
    unit.isSuffixOf value.toList && 1 ≤ digits.length && digits.length ≤ 10 &&
      digits.all Char.isDigit)

/-- Sets the role's guardrails and connection limit together, in one
    transaction, which a missing or malformed value rolls back. -/
def applyRoleLimits (role : Text) (settings : List (String × String)) (connectionLimit : ℤ) :
    Go Unit := do
  Go.ensure (validName role && 1 ≤ connectionLimit && connectionLimit ≤ 100 &&
    limitKeys.all (fun key => (settings.lookup key).any settingValue))
    (.message "invalid role limits")
  pg (.applyLimits role settings connectionLimit)

/-- Removes per-database overrides of the limit keys, one statement a key. -/
def resetDatabaseLimits (role database : Text) (keys : List String) : Go Unit := do
  Go.ensure (validName role && validName database) (.message "invalid role identity")
  Action.forEach (fun key => do
    Go.ensure ((limitSettings ⟨0, 0, -1, 0, 0⟩).any (·.1 = key)) (.message "invalid setting")
    pg (.resetDatabaseLimits role database [key])) keys

/-! ### Databases -/

/-- Creates the project database owned by its role and keeps other roles out. -/
def ensureDatabase (name owner : Text) : Go Unit := do
  Go.ensure (validName name && validName owner) (.message "invalid database identity")
  match ← pg (.databaseOwner name) with
  | some existing => Go.ensure (existing = owner) .ownerMismatch
  | none => pg (.createDatabase name owner)
  pg (.revokePublic name)

/-- The error of a step with what it was for. -/
def Go.explain {β : Type} (text : String) (x : Go β) : Go β := do
  match ← Go.attempt x with
  | .ok b => pure b
  | .error e => Action.fail (.message (text ++ e.text))

/-! ### Loading the configuration -/

/-- Reads the load time until it is later than `before`; each wait takes a fifth
    of a second, so the deadline of ten seconds passes after at most `n` waits. -/
def awaitLoad (before : Instant) : ℕ → Go Instant
  | 0 => Action.fail (.message "PostgreSQL did not confirm the configuration reload")
  | n + 1 => do
    let after ← pg .confLoadTime
    if before < after then pure after
    else if ← Action.lift (Prog.ask .expired) then
      Action.fail (.message "PostgreSQL did not confirm the configuration reload")
    else awaitLoad before n

/-- Asks PostgreSQL to load the policy on disk and waits until it reports a
    newer load time. The load time has second granularity; the source waits
    until a new one can be told from the old. -/
def reload : Go Instant := do
  let before ← pg .confLoadTime
  pg .reloadConf
  awaitLoad before 51

end Pgfy
