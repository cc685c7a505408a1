import Pgfy.Hba

/-! # The provisioner

    Turns recorded project identities into roles and databases, resuming from
    the recorded stage, and keeps the access rules, the limits and the passwords
    of ready projects in force. Everything that changes a project's role runs
    under that project's lock or, once it is ready, under the lock of the limits.

    Log lines are left out. The maps of the source are walked in no fixed order;
    here they are lists, walked in theirs.
-/

namespace Pgfy

open Calendar Program

/-! ### Helpers -/

/-- Runs a step and goes on whatever its outcome is. -/
def Go.ignore {β : Type} (x : Go β) : Run Unit := Prog.bind x (fun _ => .ret ())

/-- Runs `f` for each element in turn. -/
def Run.forEach {β : Type} (f : β → Run Unit) : List β → Run Unit
  | [] => pure ()
  | b :: rest => do
    f b
    Run.forEach f rest

/-- Runs a stage up to `n` times with a wait in between; a role or a database
    that is not this project's is not tried again. -/
def retryFrom (x : Go Unit) : ℕ → Option Err → Go Unit
  | 0, none => pure ()
  | 0, some last => Action.fail last
  | n + 1, _ => do
    match ← Go.attempt x with
    | .ok () => pure ()
    | .error e =>
      if e = .roleMismatch ∨ e = .ownerMismatch then Action.fail e
      else if ← Action.lift (Prog.ask .expired) then Action.fail e
      else retryFrom x n (some e)

def retry (x : Go Unit) : Go Unit := retryFrom x 3 none

def Stage.text : Stage → String
  | identityPersisted => "identity_persisted"
  | roleCreated => "role_created"
  | databaseCreated => "database_created"
  | ready => "ready"
  | deleting => "deleting"

/-! ### Limits -/

/-- `SetProjectLimits`: records a new revision only if the caller saw the
    current one. -/
def setProjectLimits (id : String) (l : Limits) (seen : ℕ) (now : Instant) :
    Go ProjectLimits := do
  Go.of l.validate
  if ← store (.updateLimits id l seen now) then store (.projectLimits id)
  else do
    let _ ← store (.projectLimits id)
    Action.fail .revisionConflict

/-- Sets a project's limits on its role and records the revision as applied. -/
def applyLimits (projectID : String) (role : Text) (l : ProjectLimits) : Go Unit := do
  applyRoleLimits role (limitSettings l.limits) l.limits.connectionLimit
  store (.markLimitsApplied projectID l.revision)

/-- The value of a setting; empty if it is not set. -/
def settingOf (settings : List (String × String)) (key : String) : String :=
  ((Table.find Prod.fst key settings).map Prod.snd).getD ""

/-- The limit keys set for the role in its own database. -/
def overrides (l : Limits) (state : RoleState) : List String :=
  ((limitSettings l).map Prod.fst).filter (fun key =>
    (Table.find Prod.fst key state.databaseSettings).isSome)

/-- The role does not carry the limits. -/
def drifted (l : Limits) (state : RoleState) : Bool :=
  state.connectionLimit ≠ l.connectionLimit ||
    (limitSettings l).any (fun kv => settingOf state.settings kv.1 ≠ kv.2)

/-- Removes the overrides of a role that has some. -/
def removeOverrides (x : Project × ProjectLimits) (state : RoleState) : Run Unit :=
  if overrides x.2.limits state ≠ [] then
    Go.ignore (resetDatabaseLimits x.1.roleName x.1.dbName (overrides x.2.limits state))
  else pure ()

/-- Sets the limits where the role has drifted; where it has not, a revision not
    yet recorded as applied is so now. -/
def repairLimits (x : Project × ProjectLimits) (state : RoleState) : Run Unit :=
  if drifted x.2.limits state then do
    match ← (applyLimits x.1.id x.1.roleName x.2 : Run (Except Err Unit)) with
    | .ok () => pure ()
    | .error _ => Go.ignore (store (.limitsFailed x.1.id
        ("PostgreSQL did not accept the limits. Run pgfyctl diagnostics; " ++
          "they are retried automatically.")))
  else if x.2.appliedRevision < x.2.revision then
    Go.ignore (store (.markLimitsApplied x.1.id x.2.revision))
  else pure ()

/-- One project of a pass over the limits. -/
def syncProjectLimits (states : List (Text × RoleState)) (x : Project × ProjectLimits) :
    Run Unit :=
  match Table.find Prod.fst x.1.roleName states with
  | none => pure ()
  | some (_, state) => do
    removeOverrides x state
    repairLimits x state

/-- A pass over the limits, under their lock. -/
def syncLimitsLocked : Run Unit := do
  match ← (store .readyProjectLimits : Run (Except Err _)) with
  | .error _ => pure ()
  | .ok [] => pure ()
  | .ok projects =>
    match ← (pg .roleStates : Run (Except Err _)) with
    | .error _ => pure ()
    | .ok states => Run.forEach (syncProjectLimits states) projects

/-- `SyncLimits`: brings every ready role's limits to what the operator set. -/
def syncLimits : Run Unit := do
  Prog.ask (.lock .limits)
  syncLimitsLocked
  Prog.ask (.unlock .limits)

/-! ### Provisioning -/

/-- The policy a project starts with: from anywhere. -/
def defaultAddresses : List String := ["0.0.0.0/0", "::/0"]

/-- The last stage: a project never serves without its limits and a policy. -/
def makeReady (project : Project) (limits : ProjectLimits) : Go Unit := do
  applyLimits project.id project.roleName limits
  let (st, _) ← store (.policyState project.id)
  if st.currentRevision = 0 then do
    let now ← Action.lift clock
    match ← Go.attempt (store (.recordPolicyRevision project.id 0 defaultAddresses now)) with
    | .ok _ => pure ()
    | .error e => if e = .revisionConflict then pure () else Action.fail e
  else pure ()

/-- The stages still to be run; those up to the recorded one are skipped. -/
def runStages (project : Project) : Bool → List (Stage × Go Unit) → Go Unit
  | _, [] => pure ()
  | true, (name, _) :: rest => runStages project (project.stage ≠ name) rest
  | false, (name, run) :: rest => do
    Go.explain (name.text ++ ": ") (retry run)
    let now ← Action.lift clock
    store (.setProjectStage project.id name now)
    runStages project false rest

/-- Advances the project, as it is recorded now, to ready. -/
def provisionLocked (id : String) : Go Unit := do
  let project ← store (.project id)
  if project.stage = .deleting ∨ project.failed then pure ()
  else do
    let sealedValue ← store (.sealedPassword project.id)
    match ← Go.attempt (Prog.ask (.openSecret project.id sealedValue)) with
    | .error _ =>
      Action.fail (.message "stored credentials cannot be decrypted with this installation key")
    | .ok password => do
      let limits ← store (.projectLimits project.id)
      runStages project (project.stage ≠ .identityPersisted)
        [(.roleCreated, ensureRole project.roleName password limits.limits.connectionLimit),
          (.databaseCreated, ensureDatabase project.dbName project.roleName),
          (.ready, makeReady project limits)]

/-- `provision`: one project at a time, each under its lock. -/
def provision (listed : Project) : Go Unit :=
  locked (.rotation listed.id) (provisionLocked listed.id)

/-- Provisions a project and records the failure, if it is one; whether it went
    through. -/
def provisionListed (listed : Project) : Run Bool := do
  match ← (provision listed : Run (Except Err Unit)) with
  | .ok () => pure true
  | .error e => do
    Go.ignore (store (.failProject listed.id e.text))
    pure false

end Pgfy
