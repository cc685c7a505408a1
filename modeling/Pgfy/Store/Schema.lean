import Pgfy.Storage.Layout

/-! # The management database

    The tables the application keeps in its own SQLite file, as lists of rows in
    insertion order. Columns that the source reads with a default for NULL
    carry that default (a time of `0` is "not yet"); the ones where NULL means
    something of its own are options. Enumerated text columns are inductive
    types.
-/

namespace Pgfy

open Calendar Storage

/-! ### Backups -/

/-- The backup target interval and what retention keeps. -/
structure BackupPolicy where
  targetIntervalHours : ℤ
  retentionDaily : ℤ
  retentionWeekly : ℤ
  /-- the UTC hour daily backups start at or after; -1 is any time -/
  preferredHour : ℤ
deriving DecidableEq

/-- One store the application has used. -/
structure StorageTarget where
  target : Text
  endpoint : Text
  bucket : Text
  folder : Text
  active : Bool := false
  reconciledAt : ℤ := 0
  lastError : String := ""
deriving DecidableEq

/-- One timestamp folder as the last complete listing saw it. -/
structure BucketBackup where
  manifestKey : Text
  archiveKey : Text
  dbName : Text
  takenAt : ℤ
  state : State
  installationID : String := ""
  projectID : String := ""
  projectName : String := ""
  postgresVersion : String := ""
  tableCount : ℕ := 0
  sizeBytes : ℤ := 0
  deleteStartedAt : ℤ := 0
deriving DecidableEq

/-- What one database folder was found to hold. -/
structure PrefixState where
  dbName : Text
  reconciledAt : ℤ := 0
  complete : ℕ := 0
  manifestOnly : ℕ := 0
  archiveOnly : ℕ := 0
  damaged : ℕ := 0
  mixed : Bool := false
deriving DecidableEq

/-- The application's own history of a backup it made. -/
structure Backup where
  id : String
  projectID : Option String
  jobID : String
  objectKey : Text
  sizeBytes : ℤ
  createdAt : ℤ
  storageTarget : Text
deriving DecidableEq

/-- The schedule state of a project. -/
structure BackupSchedule where
  projectID : String
  lastAttemptAt : ℤ := 0
  failures : ℕ := 0
  nextAttemptAt : ℤ := 0
deriving DecidableEq

/-! ### Projects -/

/-- How far a project has been set up; `deleting` is its tombstone. -/
inductive Stage where
  | identityPersisted
  | roleCreated
  | databaseCreated
  | ready
  | deleting
deriving DecidableEq

structure Project where
  id : String
  name : String
  dbName : Text
  roleName : Text
  idempotencyKey : String
  stage : Stage := .identityPersisted
  failed : Bool := false
  stageError : String := ""
  createdAt : ℤ
  readyAt : ℤ := 0
  frozenAt : ℤ := 0
  deletingAt : ℤ := 0
deriving DecidableEq

/-- A project's sealed password, and the one a rotation in flight will make active. -/
structure Secret where
  projectID : String
  sealedPassword : String
  pending : Option String := none
  pendingRequestID : String := ""
deriving DecidableEq

/-- One recorded list of allowed addresses. -/
structure PolicyRevision where
  projectID : String
  revision : ℕ
  addresses : List String
  createdAt : ℤ
deriving DecidableEq

inductive PolicyStatus where
  | idle
  | pending
  | applied
  | failed
deriving DecidableEq

/-- Which revision a project wants and which one is in force. -/
structure PolicyState where
  projectID : String
  currentRevision : ℕ := 0
  appliedRevision : ℕ := 0
  state : PolicyStatus := .idle
  lastError : String := ""
deriving DecidableEq

structure ConnectionCheck where
  id : String
  projectID : String
  expiresAt : ℤ
  createdAt : ℤ
deriving DecidableEq

/-- Guardrails set on a project's role. -/
structure Limits where
  statementTimeoutMS : ℤ
  idleInTransactionMS : ℤ
  tempFileLimitKB : ℤ
  lockTimeoutMS : ℤ
  connectionLimit : ℤ
deriving DecidableEq

structure ProjectLimits where
  projectID : String
  limits : Limits
  revision : ℕ := 1
  appliedRevision : ℕ := 0
  lastError : String := ""
  updatedAt : ℤ
deriving DecidableEq

/-! ### Jobs -/

inductive JobKind where
  | backup
  | restore
  | delete
deriving DecidableEq

inductive JobState where
  | queued
  | running
  | succeeded
  | failed
  | interrupted
deriving DecidableEq

/-- A deletion copies the project's identity, because the job outlives it. -/
structure DeleteInput where
  projectID : String
  name : String
  dbName : Text
  roleName : Text
deriving DecidableEq

structure RestoreInput where
  manifestKey : Text
  name : String
  projectID : String
deriving DecidableEq

/-- The decoded input column. -/
inductive JobInput where
  | backup (scheduled : Bool)
  | restore (input : RestoreInput)
  | delete (input : DeleteInput)
deriving DecidableEq

structure Job where
  id : String
  kind : JobKind
  projectID : Option String
  state : JobState := .queued
  stage : String := "queued"
  error : String := ""
  input : JobInput
  createdAt : ℤ
  startedAt : ℤ := 0
  finishedAt : ℤ := 0
  stageAt : ℤ := 0
  scheduled : Bool := false
  targetStorage : Text := []
  targetKey : Text := []
deriving DecidableEq

/-! ### Sign-in -/

/-- A SHA-256 digest, taken to be one to one. -/
structure Digest (α : Type) where
  of : α
deriving DecidableEq

/-- A salted password hash, taken to match exactly the password it was made from. -/
structure PasswordHash where
  salt : String
  password : String
deriving DecidableEq

/-- What a sealed value was sealed for; it opens for nothing else. -/
inductive SealContext where
  | adminFactor
  | enrolment (token : Digest String)
deriving DecidableEq

structure Sealed (α : Type) where
  context : SealContext
  plain : α
deriving DecidableEq

/-- The bytes an authenticator shares with the application. -/
abbrev TotpSecret := List UInt8

/-- The one administrator. The factor is NULL until one is enrolled. -/
structure Administrator where
  email : String
  passwordHash : PasswordHash
  createdAt : ℤ
  totpSecretSealed : Option (Sealed TotpSecret) := none
  totpLastStep : ℤ := 0
  codeFailures : ℕ := 0
  codeLockedUntil : ℤ := 0
deriving DecidableEq

structure SessionRow where
  tokenHash : Digest String
  scope : String
  expiresAt : ℤ
deriving DecidableEq

inductive Purpose where
  | setup
  | reset
  | enrol
  | pending
deriving DecidableEq

/-- What a confirmed enrolment does. An upgrade is bound to the password it
    followed. -/
inductive EnrolmentKind where
  | setup (email : String) (passwordHash : PasswordHash)
  | reset (passwordHash : PasswordHash)
  | upgrade (email : String) (binding : Digest PasswordHash)
deriving DecidableEq

structure Enrolment where
  kind : EnrolmentKind
  /-- the session scope the enrolment began in -/
  scope : String
  secret : TotpSecret
deriving DecidableEq

/-- The decoded payload column: nothing, a sealed enrolment, or what a password
    step is bound to. -/
inductive Payload where
  | empty
  | enrolment (value : Sealed Enrolment)
  | pending (binding : Digest PasswordHash) (scope : String)
deriving DecidableEq

structure AuthToken where
  id : ℕ
  purpose : Purpose
  tokenHash : Digest String
  expiresAt : ℤ
  attempts : ℕ := 0
  maxAttempts : ℕ
  consumedAt : Option ℤ := none
  parentID : Option ℕ := none
  payload : Payload := .empty
  createdAt : ℤ
deriving DecidableEq

/-! ### Audit and alerts -/

structure AuditEntry where
  at_ : ℤ
  adminID : ℤ
  action : String
  target : String
  requestID : String
  detail : String
deriving DecidableEq

/-- One-shot events, recorded with the change they report; `subject` is the id
    in the event's key. -/
inductive EventKind where
  | jobInterrupted
  | projectDeleted
  | deleteFailed
  | credentialRotated
  | secondFactorEnrolled
  | adminReset
  | secondFactorFailures
deriving DecidableEq

structure AlertEvent where
  kind : EventKind
  subject : String
  summary : String
  detail : String
  createdAt : ℤ
deriving DecidableEq

/-! ### The database -/

structure Database where
  maintenance : Bool := false
  policy : BackupPolicy := ⟨24, 14, 8, -1⟩
  projects : List Project := []
  secrets : List Secret := []
  policyRevisions : List PolicyRevision := []
  policyStates : List PolicyState := []
  connectionChecks : List ConnectionCheck := []
  limits : List ProjectLimits := []
  jobs : List Job := []
  backups : List Backup := []
  schedules : List BackupSchedule := []
  targets : List StorageTarget := []
  /-- folder counts, with the store they belong to -/
  prefixes : List (Text × PrefixState) := []
  /-- the reconciled view of the buckets, with the store each row belongs to -/
  bucketBackups : List (Text × BucketBackup) := []
  audit : List AuditEntry := []
  alertEvents : List AlertEvent := []
  /-- subjects of active backup alerts -/
  backupConditions : List String := []
  administrator : Option Administrator := none
  sessions : List SessionRow := []
  authTokens : List AuthToken := []
  /-- the number the next token gets; numbers are never used again -/
  nextToken : ℕ := 1

end Pgfy
