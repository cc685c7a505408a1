import Pgfy.Framework.Program
import Pgfy.Storage.Client
import Pgfy.Store.Auth

/-! # The calls the application makes

    Everything the application does outside its own memory is one of these
    calls: a statement or transaction on its database, a request to a bucket, a
    statement on PostgreSQL, an access to the managed rule file, a lock, a
    clock reading or a random token. The functions of the source become
    programs over them, so what a run may interleave with and where it may fail
    is exactly the boundaries between calls.
-/

namespace Pgfy

open Calendar Storage Program

/-! ### The database -/

/-- Statements and transactions of the store, each under its function's name. -/
inductive StoreCall : Type → Type
  | maintenance : StoreCall Bool
  | setMaintenance (on : Bool) : StoreCall Unit
  | runningJobs : StoreCall ℕ
  | backupPolicy : StoreCall BackupPolicy
  -- the reconciled view and the history
  | activateStorageTarget (t : StorageTarget) : StoreCall Unit
  | storageTarget (target : Text) : StoreCall StorageTarget
  | ensureTarget (target : Text) : StoreCall Unit
  | recordReconciled (target : Text) (at_ : Instant) (lastError : String) : StoreCall Unit
  | prefixNames (target : Text) : StoreCall (List Text)
  | prefixBackups (target dbName : Text) : StoreCall (List BucketBackup)
  | replacePrefix (target : Text) (state : PrefixState) (backups : List BucketBackup)
      (now : Instant) : StoreCall Unit
  | markBackupDeleting (target key : Text) (now : Instant) : StoreCall Unit
  | markBackupArchiveOnly (target key : Text) : StoreCall Unit
  | forgetBucketBackup (target key : Text) : StoreCall Unit
  | deleteLocalBackupRow (target key : Text) : StoreCall Unit
  | forgetLostLocalBackups (target : Text) : StoreCall Unit
  | abandonedUploadKey (target key : Text) (before : Instant) : StoreCall Bool
  | pruneJobs (before : Instant) : StoreCall Unit
  -- the job queue
  | enqueue (id : String) (kind : JobKind) (projectID : Option String) (input : JobInput)
      (scheduled : Bool) (now : Instant) : StoreCall Unit
  | job (id : String) : StoreCall Job
  | projectJobs (projectID : String) (limit : ℕ) : StoreCall (List Job)
  | setJobTarget (id : String) (target key : Text) : StoreCall Unit
  | claimJob (now : Instant) : StoreCall (Option Job)
  | setJobStage (id stage : String) (now : Instant) : StoreCall Unit
  | finishJob (id : String) (state : JobState) (stage error : String) (now : Instant) :
      StoreCall Unit
  | completeBackupJob (id : String) (projectID : Option String) (state : JobState)
      (stage error : String) (backup : Option Backup) (scheduled : Bool) (now : Instant)
      (interval : ℤ) : StoreCall Unit
  | interruptRunningJobs (now : Instant) (interval : ℤ) : StoreCall Unit
  -- projects
  | insertProject (p : Project) (sealedPassword : String) (now : Instant) : StoreCall Bool
  | project (id : String) : StoreCall Project
  | projectByKey (key : String) : StoreCall Project
  | projects : StoreCall (List Project)
  | incompleteProjects : StoreCall (List Project)
  | setProjectStage (id : String) (stage : Stage) (now : Instant) : StoreCall Unit
  | failProject (id stageError : String) : StoreCall Unit
  | retryProject (id : String) : StoreCall Unit
  | setProjectFrozen (id : String) (at_ : ℤ) : StoreCall Unit
  | recordPolicyRevision (id : String) (expected : ℕ) (addresses : List String) (now : Instant) :
      StoreCall ℕ
  | policyState (id : String) : StoreCall (PolicyState × List String)
  | applyPolicyResult (id : String) (revision : ℕ) (applied : Bool) (message : String) :
      StoreCall Unit
  | newConnectionCheck (id projectID : String) (now : Instant) : StoreCall Unit
  | projectLimits (id : String) : StoreCall ProjectLimits
  | updateLimits (id : String) (l : Limits) (seen : ℕ) (now : Instant) : StoreCall Bool
  | readyProjectLimits : StoreCall (List (Project × ProjectLimits))
  | markLimitsApplied (id : String) (revision : ℕ) : StoreCall Unit
  | limitsFailed (id reason : String) : StoreCall Unit
  | sealedPassword (id : String) : StoreCall String
  | beginRotation (id sealedValue requestID : String) : StoreCall Unit
  | pendingPassword (id : String) : StoreCall (Option String)
  | pendingRotations : StoreCall (List Secret)
  | completeRotation (id sealedValue : String) (entry : AuditEntry) : StoreCall Bool
  | audit (entry : AuditEntry) : StoreCall Unit
  -- deletion
  | beginProjectDeletion (projectID id : String) (entry : AuditEntry) (now : Instant) :
      StoreCall (Option Job × Bool)
  | resumeDeletions (ids : List String) (now : Instant) : StoreCall ℕ
  | completeProjectDeletion (jobID : String) (p : Project) (now : Instant) : StoreCall Unit
  | failDeleteJob (jobID projectID projectName stage message : String) (now : Instant) :
      StoreCall Unit

namespace StoreCall

/-- A read answers from the database and leaves it alone. -/
def read {β : Type} (f : Database → β) (db : Database) : Except Err (β × Database) :=
  .ok (f db, db)

/-- A read that may find nothing. -/
def tryRead {β : Type} (f : Database → Except Err β) (db : Database) :
    Except Err (β × Database) :=
  (f db).map (fun b => (b, db))

/-- A write that cannot be refused. -/
def write (f : Database → Database) (db : Database) : Except Err (Unit × Database) :=
  .ok ((), f db)

/-- A write that may be refused, which then changes nothing. -/
def tryWrite (f : Database → Except Err Database) (db : Database) :
    Except Err (Unit × Database) :=
  (f db).map (fun db => ((), db))

/-- What a call does to the database. -/
def run {β : Type} : StoreCall β → Database → Except Err (β × Database)
  | maintenance => read (·.maintenance)
  | setMaintenance on => write (fun db => { db with maintenance := on })
  | runningJobs => read (fun db => db.jobs.countP (·.state = .running))
  | backupPolicy => read (·.policy)
  | activateStorageTarget t => write (·.activateStorageTarget t)
  | storageTarget target => read (·.storageTarget target)
  | ensureTarget target => write (·.ensureTarget target)
  | recordReconciled target at_ lastError => write (·.recordReconciled target at_ lastError)
  | prefixNames target => read (·.prefixNames target)
  | prefixBackups target dbName => read (·.prefixBackups target dbName)
  | replacePrefix target state backups now => write (·.replacePrefix target state backups now)
  | markBackupDeleting target key now => write (·.markBackupDeleting target key now)
  | markBackupArchiveOnly target key => write (·.markBackupArchiveOnly target key)
  | forgetBucketBackup target key => write (·.forgetBucketBackup target key)
  | deleteLocalBackupRow target key => write (·.deleteLocalBackupRow target key)
  | forgetLostLocalBackups target => write (·.forgetLostLocalBackups target)
  | abandonedUploadKey target key before => read (·.abandonedUploadKey target key before)
  | pruneJobs before => write (·.pruneJobs before)
  | enqueue id kind projectID input scheduled now =>
    tryWrite (·.enqueue id kind projectID input scheduled now)
  | job id => tryRead (·.job id)
  | projectJobs projectID limit => read (·.projectJobs projectID limit)
  | setJobTarget id target key => write (·.setJobTarget id target key)
  | claimJob now => fun db => .ok (db.claimJob now)
  | setJobStage id stage now => write (·.setJobStage id stage now)
  | finishJob id state stage error now => write (·.finishJob id state stage error now)
  | completeBackupJob id projectID state stage error backup scheduled now interval =>
    tryWrite (·.completeBackupJob id projectID state stage error backup scheduled now interval)
  | interruptRunningJobs now interval => tryWrite (·.interruptRunningJobs now interval)
  | insertProject p password now => fun db =>
    match db.insertProject p password now with
    | some db => .ok (true, db)
    | none => .ok (false, db)
  | project id => tryRead (·.project id)
  | projectByKey key => tryRead (·.projectByKey key)
  | projects => read (·.allProjects)
  | incompleteProjects => read (·.incompleteProjects)
  | setProjectStage id stage now => write (·.setProjectStage id stage now)
  | failProject id stageError => write (·.failProject id stageError)
  | retryProject id => tryWrite (·.retryProject id)
  | setProjectFrozen id at_ => tryWrite (·.setProjectFrozen id at_)
  | recordPolicyRevision id expected addresses now =>
    (·.recordPolicyRevision id expected addresses now)
  | policyState id => tryRead (·.policyState id)
  | applyPolicyResult id revision applied message =>
    write (·.applyPolicyResult id revision applied message)
  | newConnectionCheck id projectID now => tryWrite (·.newConnectionCheck id projectID now)
  | projectLimits id => tryRead (·.projectLimits id)
  | updateLimits id l seen now => fun db => .ok (db.updateLimits id l seen now)
  | readyProjectLimits => read (·.readyProjectLimits)
  | markLimitsApplied id revision => write (·.markLimitsApplied id revision)
  | limitsFailed id reason => write (·.limitsFailed id reason)
  | sealedPassword id => tryRead (·.sealedPassword id)
  | beginRotation id sealedValue requestID => tryWrite (·.beginRotation id sealedValue requestID)
  | pendingPassword id => tryRead (·.pendingPassword id)
  | pendingRotations => read (·.pendingRotations)
  | completeRotation id sealedValue entry => fun db =>
    .ok (db.completeRotation id sealedValue entry)
  | audit entry => write (fun db => { db with audit := db.audit ++ [entry] })
  | beginProjectDeletion projectID id entry now => fun db =>
    match db.beginProjectDeletion projectID id entry now with
    | .error e => .error e
    | .ok (.active j) => .ok ((some j, false), db)
    | .ok (.queued created db) => .ok ((none, created), db)
  | resumeDeletions ids now => (·.resumeDeletions ids now)
  | completeProjectDeletion jobID p now => tryWrite (·.completeProjectDeletion jobID p now)
  | failDeleteJob jobID projectID projectName stage message now =>
    write (·.failDeleteJob jobID projectID projectName stage message now)

section
variable {β : Type} {a : β} {u : Unit} {db db' : Database}

theorem read_eq_ok {f : Database → β} : read f db = .ok (a, db') ↔ a = f db ∧ db' = db := by
  simp [read, eq_comm]

theorem tryRead_eq_ok {f : Database → Except Err β} :
    tryRead f db = .ok (a, db') ↔ f db = .ok a ∧ db' = db := by
  cases h : f db <;> simp [tryRead, Except.map, h, eq_comm]

theorem write_eq_ok {f : Database → Database} : write f db = .ok (u, db') ↔ db' = f db := by
  simp [write, eq_comm]

theorem tryWrite_eq_ok {f : Database → Except Err Database} :
    tryWrite f db = .ok (u, db') ↔ f db = .ok db' := by
  cases h : f db <;> simp [tryWrite, Except.map, h]

end

/-! ### What a statement leaves alone -/

/-- The statements that write the reconciled view. -/
def WritesView {β : Type} : StoreCall β → Prop
  | replacePrefix .. => True
  | markBackupDeleting .. => True
  | markBackupArchiveOnly .. => True
  | forgetBucketBackup .. => True
  | _ => False

/-- The statements that write the job queue. -/
def WritesJobs {β : Type} : StoreCall β → Prop
  | pruneJobs .. => True
  | enqueue .. => True
  | setJobTarget .. => True
  | claimJob .. => True
  | setJobStage .. => True
  | finishJob .. => True
  | completeBackupJob .. => True
  | interruptRunningJobs .. => True
  | beginProjectDeletion .. => True
  | resumeDeletions .. => True
  | completeProjectDeletion .. => True
  | failDeleteJob .. => True
  | _ => False

/-- The statements that write the backup schedules. -/
def WritesSchedules {β : Type} : StoreCall β → Prop
  | enqueue .. => True
  | completeBackupJob .. => True
  | interruptRunningJobs .. => True
  | completeProjectDeletion .. => True
  | _ => False

/-- The statements that write the rows of projects. -/
def WritesProjects {β : Type} : StoreCall β → Prop
  | insertProject .. => True
  | setProjectStage .. => True
  | failProject .. => True
  | retryProject .. => True
  | setProjectFrozen .. => True
  | beginProjectDeletion .. => True
  | completeProjectDeletion .. => True
  | _ => False

/-- The statements that write sealed passwords. -/
def WritesSecrets {β : Type} : StoreCall β → Prop
  | insertProject .. => True
  | beginRotation .. => True
  | completeRotation .. => True
  | completeProjectDeletion .. => True
  | _ => False

/-- The statements that write the access policy. -/
def WritesPolicy {β : Type} : StoreCall β → Prop
  | insertProject .. => True
  | recordPolicyRevision .. => True
  | applyPolicyResult .. => True
  | completeProjectDeletion .. => True
  | _ => False

/-- The statements that record a notice. -/
def WritesEvents {β : Type} : StoreCall β → Prop
  | interruptRunningJobs .. => True
  | completeRotation .. => True
  | completeProjectDeletion .. => True
  | failDeleteJob .. => True
  | _ => False

/-- The statements that write the limits. -/
def WritesLimits {β : Type} : StoreCall β → Prop
  | insertProject .. => True
  | updateLimits .. => True
  | markLimitsApplied .. => True
  | limitsFailed .. => True
  | completeProjectDeletion .. => True
  | _ => False

def WritesMaintenance {β : Type} : StoreCall β → Prop
  | setMaintenance .. => True
  | _ => False

/-- Each table is as it was, unless the statement is one of those that write it. -/
structure Frame {β : Type} (q : StoreCall β) (db db' : Database) : Prop where
  signIn : db'.administrator = db.administrator ∧ db'.sessions = db.sessions ∧
    db'.authTokens = db.authTokens ∧ db'.nextToken = db.nextToken
  view : q.WritesView ∨ db'.bucketBackups = db.bucketBackups
  jobs : q.WritesJobs ∨ db'.jobs = db.jobs
  schedules : q.WritesSchedules ∨ db'.schedules = db.schedules
  projects : q.WritesProjects ∨ db'.projects = db.projects
  secrets : q.WritesSecrets ∨ db'.secrets = db.secrets
  policy : q.WritesPolicy ∨
    db'.policyStates = db.policyStates ∧ db'.policyRevisions = db.policyRevisions
  limits : q.WritesLimits ∨ db'.limits = db.limits
  events : q.WritesEvents ∨ db'.alertEvents = db.alertEvents
  maintenance : q.WritesMaintenance ∨ db'.maintenance = db.maintenance

theorem run_frame {β : Type} {q : StoreCall β} {a : β} {db db' : Database}
    (h : q.run db = .ok (a, db')) : q.Frame db db' := by
  -- each case says what the new database is; the frame is then read off it
  cases q <;>
    simp only [run, read_eq_ok, tryRead_eq_ok, write_eq_ok, tryWrite_eq_ok] at h <;>
    first
    | obtain ⟨-, rfl⟩ := h
    | subst h
    | skip
  case' enqueue => obtain ⟨-, -, -, -, schedules, -, rfl⟩ := Database.enqueue_ok h
  case' claimJob now =>
    unfold Database.claimJob at h
    split at h
    case' h_1 => cases h
    case' h_2 => split at h <;> cases h
  case' completeBackupJob => obtain ⟨backups, schedules, -, rfl⟩ := Database.completeBackupJob_ok h
  case' interruptRunningJobs =>
    obtain ⟨events, schedules, -, -, rfl⟩ := Database.interruptRunningJobs_ok h
  case' insertProject p password now =>
    split at h
    case' h_1 hinsert =>
      cases h
      obtain ⟨-, rfl⟩ := Database.insertProject_some hinsert
    case' h_2 => cases h
  case' retryProject => obtain rfl := Database.retryProject_ok h
  case' setProjectFrozen => obtain rfl := Database.setProjectFrozen_ok h
  case' recordPolicyRevision => obtain ⟨-, rfl⟩ := Database.recordPolicyRevision_ok h
  case' newConnectionCheck => obtain ⟨-, rfl⟩ := Database.newConnectionCheck_ok h
  case' beginRotation => obtain rfl := Database.beginRotation_ok h
  case' completeRotation =>
    unfold Database.completeRotation at h
    split at h <;> cases h
  case' beginProjectDeletion =>
    split at h
    case h_1 => cases h
    case' h_2 => cases h
    case' h_3 hbegin =>
      cases h
      obtain ⟨-, -, p, -, hcase⟩ := Database.beginProjectDeletion_queued hbegin
      rcases hcase with ⟨-, -, -, audit, rfl⟩ | ⟨-, -, -, -, rfl⟩
  case' resumeDeletions => rcases Database.resumeDeletions_ok h with rfl | ⟨-, -, -, rfl⟩
  case' completeProjectDeletion =>
    obtain ⟨-, event, -, -, rfl⟩ := Database.completeProjectDeletion_ok h
  case' failDeleteJob =>
    unfold Database.failDeleteJob
    dsimp only
    split
  all_goals
    refine ⟨⟨rfl, rfl, rfl, rfl⟩, ?_, ?_, ?_, ?_, ?_, ?_, ?_, ?_, ?_⟩ <;>
    first
    | exact Or.inr rfl
    | exact Or.inr ⟨rfl, rfl⟩
    | exact Or.inl trivial

/-- No other statement changes a row of the view. -/
theorem run_bucketBackups {β : Type} {q : StoreCall β} {a : β} {db db' : Database}
    (hq : ¬ q.WritesView) (h : q.run db = .ok (a, db')) : db'.bucketBackups = db.bucketBackups :=
  (run_frame h).view.resolve_left hq

end StoreCall

/-! ### Buckets, PostgreSQL and the rule file -/

/-- Requests to the bucket of a store. -/
inductive BucketCall : Type → Type
  | listObjects (root : Text) (recursive : Bool) : BucketCall (List Object)
  | readBytes (key : Text) : BucketCall Content
  | putObject (key : Text) (content : Content) : BucketCall Unit
  | removeObject (key : Text) : BucketCall Unit
  | bucketVersioning : BucketCall Versioning

/-- Generated identifiers only: `app_` and twelve hexadecimal digits. -/
def validName (name : Text) : Bool :=
  "app_".toList.isPrefixOf name && name.length == 16 &&
    (name.drop 4).all (fun c => c.isDigit || ('a' ≤ c && c ≤ 'f'))

/-- Attributes of a role that tell a project's own from any other. -/
structure RoleInfo where
  login : Bool
  super : Bool
  createdb : Bool
  createrole : Bool
deriving DecidableEq

/-- The settings and connection limit a role carries. -/
structure RoleState where
  settings : List (String × String)
  databaseSettings : List (String × String)
  connectionLimit : ℤ
deriving DecidableEq

/-- Statements on PostgreSQL. -/
inductive PgCall : Type → Type
  | roleInfo (role : Text) : PgCall (Option RoleInfo)
  | setPassword (role : Text) (password : String) : PgCall Unit
  | createRole (role : Text) (password : String) (connectionLimit : ℤ) : PgCall Unit
  | databaseOwner (database : Text) : PgCall (Option Text)
  | createDatabase (database owner : Text) : PgCall Unit
  | revokePublic (database : Text) : PgCall Unit
  | applyLimits (role : Text) (settings : List (String × String)) (connectionLimit : ℤ) :
      PgCall Unit
  /-- every role with a generated name -/
  | roleStates : PgCall (List (Text × RoleState))
  | resetDatabaseLimits (role database : Text) (keys : List String) : PgCall Unit
  /-- whether new sessions of the role are read-only -/
  | setReadOnly (role : Text) (on : Bool) : PgCall Unit
  | terminateSessions (database role : Text) : PgCall Unit
  /-- whether the role and the database of that owner are this installation's -/
  | ownership (role database : Text) : PgCall (Bool × Bool)
  | disableLogin (role : Text) : PgCall Unit
  | terminateRole (role : Text) : PgCall Unit
  | dropDatabase (database : Text) : PgCall Unit
  | dropRole (role : Text) : PgCall Unit
  /-- when the configuration was last loaded -/
  | confLoadTime : PgCall Instant
  /-- asks for the configuration to be loaded, which happens some time later -/
  | reloadConf : PgCall Unit

/-- One line of the managed rule file. -/
structure RuleLine where
  tls : Bool
  database : Text
  role : Text
  address : String
deriving DecidableEq

/-- Accesses to the managed rule file. -/
inductive FileCall : Type → Type
  | readRules : FileCall (Option (List RuleLine))
  | writeRules (lines : List RuleLine) : FileCall Unit
  | removeRules : FileCall Unit

/-- What is locked: a project's role, the policy sync, the limits sync, the rule file. -/
inductive Mutex where
  | rotation (projectID : String)
  | policy
  | limits
  | ruleFile
deriving DecidableEq

/-- Work on the host that touches none of the above: dumps, restores, checks. -/
inductive HostCall where
  | prepareBackup (dbName : Text)
  | dump (dbName : Text)
  | prepareRestore (m : Manifest)
  | restore (dbName roleName : Text)
deriving DecidableEq

/-- A call of any kind. Those to something that may fail answer with an error
    or a result. -/
inductive Call : Type → Type 1
  | store {β : Type} (q : StoreCall β) : Call (Except Err β)
  | auth {β : Type} (q : AuthCall β) : Call (Except Err β)
  | bucket {β : Type} (settings : Settings) (q : BucketCall β) : Call (Except Err β)
  | pg {β : Type} (q : PgCall β) : Call (Except Err β)
  /-- what PostgreSQL's own parser says of the rule files on disk -/
  | hbaFileErrors : Call (Except Err (List String))
  | file {β : Type} (q : FileCall β) : Call (Except Err β)
  | host (q : HostCall) : Call (Except Err Unit)
  | storageClient : Call (Except Err Settings)
  /-- seals a project's password -/
  | sealSecret (projectID password : String) : Call String
  | openSecret (projectID sealedValue : String) : Call (Except Err String)
  /-- an address in lower case without blanks, and whether it is one -/
  | normalizeEmail (value : String) : Call (String × Bool)
  | now : Call Instant
  | token : Call String
  | tokens : Call (List String)
  /-- a new secret for an authenticator -/
  | totpSecret : Call TotpSecret
  /-- whether the rate limits and the slots for hashing let a request through -/
  | allow : Call Bool
  /-- whether the context of an operation has ended by the end of a wait -/
  | expired : Call Bool
  | lock (m : Mutex) : Call Unit
  | tryLock (m : Mutex) : Call Bool
  | unlock (m : Mutex) : Call Unit
  | respond (status : ℕ) (code : String) : Call Unit

/-- A program of the application, and one that may fail. -/
abbrev Run (α : Type) := Prog Call α

abbrev Go (α : Type) := Action Err Call α

/-- The current time. -/
def clock : Run Instant := Prog.ask .now

def store {β : Type} (q : StoreCall β) : Go β := Prog.ask (.store q)

def auth {β : Type} (q : AuthCall β) : Go β := Prog.ask (.auth q)

def bucket {β : Type} (s : Settings) (q : BucketCall β) : Go β := Prog.ask (.bucket s q)

def pg {β : Type} (q : PgCall β) : Go β := Prog.ask (.pg q)

def file {β : Type} (q : FileCall β) : Go β := Prog.ask (.file q)

/-- A result that is already known, or its error. -/
def Go.of {β : Type} (r : Except Err β) : Go β := Prog.ret r

end Pgfy
