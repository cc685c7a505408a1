import Pgfy.Store.Jobs

/-! # Statements on projects, their access policy, limits and credentials

    Writers of a project's stage never overwrite the deletion tombstone. The
    dependent tables name their project by a foreign key, so rows can only be
    added for a project that exists.
-/

namespace Pgfy

open Calendar

/-- `ORDER BY created_at, id`. -/
def Project.OlderFirst (a b : Project) : Prop :=
  a.createdAt < b.createdAt ∨ (a.createdAt = b.createdAt ∧ a.id ≤ b.id)

instance (a b : Project) : Decidable (a.OlderFirst b) := by
  unfold Project.OlderFirst; infer_instance

/-- The limits a new project starts with. -/
def Limits.default : Limits := ⟨60000, 300000, 1048576, 10000, 25⟩

/-- Off, or between a second and a day. -/
def Limits.checkTimeout (name : String) (v : ℤ) : Except Err Unit :=
  if v ≠ 0 ∧ (v < 1000 ∨ 86400000 < v) then
    .error (.message (name ++ " must be off or between 1 second and 24 hours"))
  else .ok ()

/-- Whether every limit is in a range PostgreSQL accepts. -/
def Limits.validate (l : Limits) : Except Err Unit := do
  Limits.checkTimeout "statement timeout" l.statementTimeoutMS
  Limits.checkTimeout "idle-in-transaction timeout" l.idleInTransactionMS
  Limits.checkTimeout "lock timeout" l.lockTimeoutMS
  if l.tempFileLimitKB ≠ -1 ∧ (l.tempFileLimitKB < 1024 ∨ 1073741824 < l.tempFileLimitKB) then
    .error (.message "temporary file limit must be unlimited or between 1 MB and 1 TB")
  else if l.connectionLimit < 1 ∨ 100 < l.connectionLimit then
    .error (.message "connection limit must be between 1 and 100")
  else .ok ()

namespace Database

/-! ### Identity and stage -/

/-- Persists identity and sealed credentials. `none` is a unique-key conflict,
    after which the caller looks the idempotency key up. -/
def insertProject (p : Project) (sealedPassword : String) (now : Instant) (db : Database) :
    Option Database :=
  if db.projects.any (fun o => o.id = p.id ∨ o.dbName = p.dbName ∨ o.roleName = p.roleName ∨
      o.idempotencyKey = p.idempotencyKey) then none
  else some { db with
    projects := db.projects ++ [{ p with
      stage := .identityPersisted, failed := false, stageError := "", createdAt := unix now,
      readyAt := 0, frozenAt := 0, deletingAt := 0 }]
    secrets := db.secrets ++ [{ projectID := p.id, sealedPassword := sealedPassword }]
    policyStates := db.policyStates ++ [{ projectID := p.id }]
    limits := db.limits ++ [{ projectID := p.id, limits := .default, updatedAt := unix now }] }

variable {db db' : Database}

/-- The row a new project starts as. -/
def newProject (p : Project) (now : Instant) : Project :=
  { p with
    stage := .identityPersisted, failed := false, stageError := "", createdAt := unix now,
    readyAt := 0, frozenAt := 0, deletingAt := 0 }

theorem insertProject_some {p : Project} {password : String} {now : Instant}
    (h : db.insertProject p password now = some db') :
    (∀ o ∈ db.projects, o.id ≠ p.id ∧ o.dbName ≠ p.dbName ∧ o.roleName ≠ p.roleName ∧
        o.idempotencyKey ≠ p.idempotencyKey) ∧
      db' = { db with
        projects := db.projects ++ [newProject p now]
        secrets := db.secrets ++ [{ projectID := p.id, sealedPassword := password }]
        policyStates := db.policyStates ++ [{ projectID := p.id }]
        limits := db.limits ++
          [{ projectID := p.id, limits := .default, updatedAt := unix now }] } := by
  unfold insertProject at h
  split at h
  · cases h
  · next hnew =>
    cases h
    exact ⟨by simpa using hnew, rfl⟩

def project (id : String) (db : Database) : Except Err Project :=
  match Table.find Project.id id db.projects with
  | some p => .ok p
  | none => .error .projectNotFound

def projectByKey (key : String) (db : Database) : Except Err Project :=
  match Table.find Project.idempotencyKey key db.projects with
  | some p => .ok p
  | none => .error .projectNotFound

def allProjects (db : Database) : List Project := db.projects.insertionSort Project.OlderFirst

/-- Projects the provisioner still owes work. -/
def incompleteProjects (db : Database) : List Project :=
  (db.projects.filter (fun p => !p.failed && p.stage ≠ .ready && p.stage ≠ .deleting)).insertionSort
    Project.OlderFirst

/-- Changes the row of one project. -/
def modifyProject (id : String) (f : Project → Project) (db : Database) : Database :=
  { db with projects := Table.modify Project.id id f db.projects }

/-- Records a stage, unless the project is marked for deletion. -/
def setProjectStage (id : String) (stage : Stage) (now : Instant) : Database → Database :=
  modifyProject id (fun p =>
    if p.stage = .deleting then p
    else if stage = .ready then { p with stage := stage, readyAt := unix now }
    else { p with stage := stage })

/-- Records a failure, unless the project is marked for deletion. -/
def failProject (id : String) (stageError : String) : Database → Database :=
  modifyProject id (fun p =>
    if p.stage = .deleting then p else { p with failed := true, stageError := stageError })

/-- Clears the failure of a failed project. -/
def retryProject (id : String) (db : Database) : Except Err Database :=
  if db.projects.any (fun p => p.id = id ∧ p.failed) then
    .ok (db.modifyProject id (fun p =>
      if p.failed then { p with failed := false, stageError := "" } else p))
  else .error .projectNotFound

/-- Records when writes were frozen; `0` resumes them. -/
def setProjectFrozen (id : String) (at_ : ℤ) (db : Database) : Except Err Database :=
  if db.hasProject id then .ok (db.modifyProject id (fun p => { p with frozenAt := at_ }))
  else .error .projectNotFound

theorem retryProject_ok {id : String} (h : db.retryProject id = .ok db') :
    db' = db.modifyProject id (fun p =>
      if p.failed then { p with failed := false, stageError := "" } else p) := by
  unfold retryProject at h
  split at h
  · cases h
    rfl
  · cases h

theorem setProjectFrozen_ok {id : String} {at_ : ℤ} (h : db.setProjectFrozen id at_ = .ok db') :
    db' = db.modifyProject id (fun p => { p with frozenAt := at_ }) := by
  unfold setProjectFrozen at h
  split at h
  · cases h
    rfl
  · cases h

/-! ### Access policy -/

/-- Replaces the wanted allowlist if the caller saw the current revision. -/
def recordPolicyRevision (projectID : String) (expected : ℕ) (addresses : List String)
    (now : Instant) (db : Database) : Except Err (ℕ × Database) :=
  match Table.find PolicyState.projectID projectID db.policyStates with
  | none => .error .projectNotFound
  | some st =>
    if st.currentRevision ≠ expected then .error .revisionConflict
    else if db.policyRevisions.any (fun r =>
        r.projectID = projectID ∧ r.revision = st.currentRevision + 1) then .error .driver
    else .ok (st.currentRevision + 1, { db with
      policyRevisions := db.policyRevisions ++
        [⟨projectID, st.currentRevision + 1, addresses, unix now⟩]
      policyStates := Table.modify PolicyState.projectID projectID (fun s => { s with
        currentRevision := st.currentRevision + 1, state := .pending, lastError := "" })
        db.policyStates })

theorem recordPolicyRevision_ok {id : String} {expected n : ℕ} {addresses : List String}
    {now : Instant} (h : db.recordPolicyRevision id expected addresses now = .ok (n, db')) :
    (∃ st ∈ db.policyStates, st.projectID = id) ∧ db' = { db with
      policyRevisions := db.policyRevisions ++ [⟨id, n, addresses, unix now⟩]
      policyStates := Table.modify PolicyState.projectID id (fun s => { s with
        currentRevision := n, state := .pending, lastError := "" }) db.policyStates } := by
  unfold recordPolicyRevision at h
  split at h
  · cases h
  next st hfind =>
  split at h
  · cases h
  split at h
  · cases h
  cases h
  exact ⟨⟨st, Table.find_eq_some hfind⟩, rfl⟩

/-- A project's policy state and the addresses of its current revision. -/
def policyState (projectID : String) (db : Database) :
    Except Err (PolicyState × List String) :=
  match Table.find PolicyState.projectID projectID db.policyStates with
  | none => .error .projectNotFound
  | some st =>
    .ok (st, ((db.policyRevisions.find? (fun r =>
      r.projectID = projectID ∧ r.revision = st.currentRevision)).map (·.addresses)).getD [])

/-- Records the outcome of applying one revision, if it is still current. -/
def applyPolicyResult (projectID : String) (revision : ℕ) (applied : Bool) (message : String)
    (db : Database) : Database :=
  { db with
    policyStates := Table.modify PolicyState.projectID projectID (fun st =>
      if st.currentRevision ≠ revision then st
      else if applied then
        { st with appliedRevision := revision, state := .applied, lastError := "" }
      else { st with state := .failed, lastError := message }) db.policyStates }

/-- Starts a connection check for a project that exists. -/
def newConnectionCheck (id projectID : String) (now : Instant) (db : Database) :
    Except Err Database :=
  if db.connectionChecks.any (·.id = id) then .error .driver
  else if !db.hasProject projectID then .error .driver
  else .ok { db with
    connectionChecks := db.connectionChecks ++
      [⟨id, projectID, unix (now + 600 * second), unix now⟩] }

theorem newConnectionCheck_ok {id projectID : String} {now : Instant}
    (h : db.newConnectionCheck id projectID now = .ok db') :
    db.hasProject projectID = true ∧ db' = { db with
      connectionChecks := db.connectionChecks ++
        [⟨id, projectID, unix (now + 600 * second), unix now⟩] } := by
  unfold newConnectionCheck at h
  split at h
  · cases h
  split at h
  · cases h
  next hp =>
  cases h
  exact ⟨by simpa using hp, rfl⟩

/-! ### Limits -/

def projectLimits (projectID : String) (db : Database) : Except Err ProjectLimits :=
  match Table.find ProjectLimits.projectID projectID db.limits with
  | some l => .ok l
  | none => .error .projectNotFound

/-- The update of `SetProjectLimits`: whether the seen revision was current. -/
def updateLimits (projectID : String) (l : Limits) (seen : ℕ) (now : Instant) (db : Database) :
    Bool × Database :=
  (db.limits.any (fun o => o.projectID = projectID ∧ o.revision = seen), { db with
    limits := Table.modify ProjectLimits.projectID projectID (fun o =>
      if o.revision = seen
      then { o with limits := l, revision := o.revision + 1, updatedAt := unix now }
      else o) db.limits })

/-- Every ready project with its desired limits. -/
def readyProjectLimits (db : Database) : List (Project × ProjectLimits) :=
  ((db.projects.filter (·.stage = .ready)).filterMap (fun p =>
    (Table.find ProjectLimits.projectID p.id db.limits).map (fun l => (p, l)))).insertionSort
      (fun a b => a.1.createdAt ≤ b.1.createdAt)

/-- Records that a revision is in force, if it is still the wanted one. -/
def markLimitsApplied (projectID : String) (revision : ℕ) (db : Database) : Database :=
  { db with
    limits := Table.modify ProjectLimits.projectID projectID (fun o =>
      if o.revision = revision
      then { o with appliedRevision := revision, lastError := "" } else o) db.limits }

/-- Records why PostgreSQL did not take the limits. -/
def limitsFailed (projectID reason : String) (db : Database) : Database :=
  { db with
    limits := Table.modify ProjectLimits.projectID projectID
      (fun o => { o with lastError := reason }) db.limits }

/-! ### Credentials -/

def sealedPassword (id : String) (db : Database) : Except Err String :=
  match Table.find Secret.projectID id db.secrets with
  | some s => .ok s.sealedPassword
  | none => .error .projectNotFound

/-- Records the new password of a ready project before its role changes. -/
def beginRotation (projectID sealedValue requestID : String) (db : Database) :
    Except Err Database :=
  if db.secrets.any (·.projectID = projectID) ∧
      db.projects.any (fun p => p.id = projectID ∧ p.stage = .ready) then
    .ok { db with
      secrets := Table.modify Secret.projectID projectID (fun s => { s with
        pending := some sealedValue, pendingRequestID := requestID }) db.secrets }
  else .error .projectNotFound

theorem beginRotation_ok {id sealedValue requestID : String}
    (h : db.beginRotation id sealedValue requestID = .ok db') :
    db' = { db with
      secrets := Table.modify Secret.projectID id (fun s => { s with
        pending := some sealedValue, pendingRequestID := requestID }) db.secrets } := by
  unfold beginRotation at h
  split at h
  · cases h
    rfl
  · cases h

def pendingPassword (projectID : String) (db : Database) : Except Err (Option String) :=
  match Table.find Secret.projectID projectID db.secrets with
  | some s => .ok s.pending
  | none => .error .projectNotFound

/-- Rotations to finish; a project being deleted has no role left for one. -/
def pendingRotations (db : Database) : List Secret :=
  db.secrets.filter (fun s => s.pending.isSome &&
    db.projects.any (fun p => p.id = s.projectID ∧ p.stage ≠ .deleting))

/-- Makes the pending password the active one, if it is still the same. -/
def completeRotation (projectID sealedValue : String) (entry : AuditEntry) (db : Database) :
    Bool × Database :=
  if db.secrets.any (fun s => s.projectID = projectID ∧ s.pending = some sealedValue) then
    (true, ({ db with
      secrets := Table.modify Secret.projectID projectID (fun s =>
        if s.pending = some sealedValue
        then { s with sealedPassword := sealedValue, pending := none, pendingRequestID := "" }
        else s) db.secrets
      audit := db.audit ++ [entry] }).recordAlertEvent .credentialRotated projectID
        "A database password was changed"
        ("Project " ++ projectID ++ "; every session using the old password was closed.")
        (ofUnix entry.at_))
  else (false, db)

end Database

end Pgfy
