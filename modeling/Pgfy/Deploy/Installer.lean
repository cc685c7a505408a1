import Pgfy.Deploy.Host

/-! # Updating an installation

    `update` and `rollback_update` of the installer, with what they call. An
    update pauses the installation, takes a snapshot, switches to the new
    release and commits by removing `meta.json`; an exception before that undoes
    it. `rollback_update` restores the snapshot, and is also a command of its
    own for an update that was killed.

    A loop with a deadline makes at most as many rounds as its pauses leave time
    for.
-/

namespace Pgfy.Deploy

open Program

/-! ### Python -/

def raiseIf (b : Bool) (e : PyError) : Py Unit := if b then raise e else pure ()

/-- `try` with an `except` for some exceptions. -/
def catching {α : Type} (catches : PyError → Bool) (p : Py α) (handler : PyError → Py α) : Py α :=
  (Action.attempt p).bind (fun r => match r with
    | .ok a => pure a
    | .error e => if catches e then handler e else raise e)

/-- A part of `update`, with the text `step` has in it. -/
def during {α : Type} (step : String) (p : Py α) : Action (String × PyError) Step α :=
  Prog.bind p (fun r => match r with
    | .ok a => .ret (.ok a)
    | .error e => .ret (.error (step, e)))

def setShield (on : Bool) : Py Unit := Prog.ask (.shield on)

/-- With signals ignored, `with signals(signal.SIG_IGN)`. A signal may still come
    before, and again after it. -/
def shielded {α : Type} (p : Py α) : Py α :=
  (setShield true).bind (fun _ => (Action.attempt p).bind (fun r =>
    (setShield false).bind (fun _ => Prog.ret r)))

/-! ### The application -/

/-- `time.monotonic() < deadline and app_status(installation) != "running"`, two
    seconds apart for two minutes. -/
def awaitRunning : ℕ → Py Unit
  | 0 => pure ()
  | n + 1 => do
    let soon ← tool .inTime
    if soon then do
      let status ← tool .appStatus
      if status = .running then pure () else awaitRunning n
    else pure ()

def awaitStopped (failure : String) : ℕ → Py Unit
  | 0 => raise (.install failure)
  | n + 1 => do
    let soon ← tool .inTime
    if soon then do
      let status ← tool .appStatus
      if status = .other then pure () else awaitStopped failure n
    else raise (.install failure)

/-- One second apart for a minute. -/
def stopApplication (failure : String) : Py Unit := do
  tool .composeStop
  awaitStopped failure 60

def warnIf (b : Bool) : Py Unit := if b then tool .say else pure ()

def unquiesce (wasRunning : Bool) : Py Unit := do
  tool .composeUpAnyway
  awaitRunning 60
  let resumed ← tool .maintenanceOff
  warnIf (!resumed)
  warnIf (!wasRunning)

/-! ### `update-rollback/` -/

def rmtree : Py Unit := do
  let es ← tool .entries
  Action.forEach (fun e => tool (.remove e)) es
  tool .removeDir

def ignoringOs (p : Py Unit) : Py Unit := catching PyError.isOs p (fun _ => pure ())

/-- The same with `ignore_errors=True`. -/
def rmtreeAnyway : Py Unit := do
  let es ← catching PyError.isOs (tool .entries) (fun _ => pure [])
  Action.forEach (fun e => ignoringOs (tool (.remove e))) es
  ignoringOs (tool .removeDir)

/-! ### The rollback -/

def notApplied : String := "No update was applied; the application was restarted."

def unknownFormat : PyError := .install
  "update-rollback/ was written by an unknown installer version; restore it by hand."

def snapshotLost : PyError := .install
  ("The storage snapshot is missing or damaged, so nothing was rolled back. Keep " ++
    "update-rollback/ and data/sqlite/.update-rollback.db; run pgfyctl diagnostics.")

def stillRunning : String :=
  "The application did not stop during the rollback. update-rollback/ is kept; run pgfyctl " ++
    "rollback-update to retry."

def notReady (r : Record) : PyError := .install
  ("Rollback to " ++ r.source ++ " did not reach readiness. update-rollback/ is kept; run " ++
    "pgfyctl diagnostics, then pgfyctl rollback-update to retry.")

def rolledBack (r : Record) : Option String → String
  | some reason => "Update to " ++ r.target ++ " failed while " ++ reason ++ ". Restored " ++
      r.source ++ "; it is ready. Sign in again."
  | none => "Rolled back the interrupted update to " ++ r.target ++ ". Restored " ++ r.source ++
      "; it is ready. Sign in again."

def restoreFile (f : ManagedFile) : Py Unit := do
  let c ← tool (.readSaved f)
  tool (.write f c)

/-- The files and the database as they were. -/
def restoreAll (r : Record) : Py Unit := do
  let _ ← tool (.read .stateJson)
  tool .composeStopAnyway
  Action.forEach restoreFile r.files
  let _ ← tool (.read .stateJson)
  stopApplication stillRunning
  let cfg ← tool (.read .installJson)
  let generation ← tool .uuid
  tool (.write .installJson { cfg with generation := generation })
  tool .storeRestore

/-- The previous release starts, and the traces of the update go. -/
def restart (r : Record) : Py Unit := do
  tool .composeUp
  catching PyError.isInstall (tool .verify) (fun _ => raise (notReady r))
  let resumed ← tool .maintenanceOff
  warnIf (!resumed)
  tool .discardSnapshot
  rmtree

def rollbackRecorded (reason : Option String) : Py String := do
  let r ← tool .readRecord
  raiseIf (r.format != 1) unknownFormat
  catching PyError.isInstall (tool .storeCheck) (fun _ => raise snapshotLost)
  restoreAll r
  restart r
  pure (rolledBack r reason)

/-- The update stopped before its snapshot was complete. -/
def rollbackUnrecorded : Py String := do
  let _ ← tool (.read .stateJson)
  unquiesce true
  rmtreeAnyway
  pure notApplied

def rollbackUpdate (reason : Option String) : Py String := do
  let recorded ← tool .recordExists
  if recorded then rollbackRecorded reason else rollbackUnrecorded

/-! ### The update -/

/-- How the installer of a release writes its files. -/
structure Rendering where
  composeEnv : (state cfg : Content) → String
  caddyfile : (cfg : Content) → String
  pgHba : (state : Content) → String
  pgfyctl : Release → String

structure Bundle where
  release : Release
  rendering : Rendering

def jobsBusy : PyError := .install
  "A backup or restore is running. Retry when it finishes, or pass --drain to wait for it."

def jobsStillBusy : PyError := .install
  "A backup or restore is still running after two hours; nothing was changed."

/-- Five seconds apart for two hours. -/
def awaitJobs : ℕ → ℕ → Py Unit
  | 0, running => raiseIf (running != 0) jobsStillBusy
  | n + 1, running =>
    if running = 0 then pure ()
    else do
      let soon ← tool .inTime
      raiseIf (!soon) jobsStillBusy
      tool .say
      let running ← tool .jobsRunning
      awaitJobs n running

def notStopped : String := "The application did not stop; nothing was changed."

def pause (drain wasRunning : Bool) : Py Unit :=
  if wasRunning then do
    tool (.maintenance true)
    let running ← tool .jobsRunning
    raiseIf (running != 0 && !drain) jobsBusy
    awaitJobs 1441 running
    stopApplication notStopped
  else do
    -- a crash-looping application is stopped before anything reads its storage
    stopApplication notStopped
    tool .maintenanceAside

def takeSnapshot (source target : Release) : Py Unit := do
  tool .makeDir
  Action.forEach (fun f => tool (.save f)) updateFiles
  tool .storeSnapshot
  tool (.writeRecord { source := source, target := target, files := updateFiles })
  tool .fsyncDir

/-- The new release's own part, in a process of its own. -/
def converge (bundle : Bundle) : Py Unit := do
  let state ← tool (.read .stateJson)
  let cfg ← tool (.read .installJson)
  tool (.write .composeEnv
    { release := state.release, body := bundle.rendering.composeEnv state cfg })
  tool (.write .caddyfile { release := bundle.release, body := bundle.rendering.caddyfile cfg })
  tool (.write .pgHba { release := bundle.release, body := bundle.rendering.pgHba state })
  tool .convergeHost

def switch (own : Rendering) (bundle : Bundle) (state cfg : Content) : Py Unit := do
  let _version ← tool .caddyVersion
  let newState := { state with release := bundle.release }
  tool (.write .stateJson newState)
  tool (.write .composeEnv { release := bundle.release, body := own.composeEnv newState cfg })
  let generation ← tool .uuid
  tool (.write .installJson { cfg with release := bundle.release, generation := generation })
  tool (.write .pgfyctl { release := bundle.release, body := own.pgfyctl bundle.release })
  let _ ← tool (.read .stateJson)

/-- The flags `snapshot_ready` and `committed` are both off in it. -/
def preparing (bundle : Bundle) (drain wasRunning : Bool) (state : Content) :
    Action (String × PyError) Step Unit := do
  during "pausing the installation" (pause drain wasRunning)
  during "pausing the installation" (tool .say)
  during "taking the snapshot" (takeSnapshot state.release bundle.release)

/-- The flag `snapshot_ready` is on in it. -/
def applying (own : Rendering) (bundle : Bundle) (state cfg : Content) :
    Action (String × PyError) Step Unit := do
  during "switching to the new release" (switch own bundle state cfg)
  during "applying the new release's host configuration" (converge bundle)
  during "applying the new release's host configuration" (tool .say)
  during "starting the new release" (tool .composeUp)
  during "verifying readiness" (tool .verify)
  -- commit point: from here on the new release stays, whatever happens during cleanup
  during "verifying readiness" (tool .unlinkRecord)

/-- The text of what stopped an update. -/
def reasonOf (step : String) (e : PyError) : String := step ++ ": " ++ e.text

/-- The handler with `snapshot_ready` off. -/
def abandon (wasRunning : Bool) (step : String) (e : PyError) : Py Unit := do
  rmtreeAnyway
  catching PyError.isInstall (tool .discardSnapshot) (fun _ => pure ())
  unquiesce wasRunning
  if e.isInstall then raise e
  else raise (.install ("Update stopped while " ++ reasonOf step e ++
    "; nothing was changed and the application was restarted."))

/-- The handler with `snapshot_ready` on. -/
def revert (step : String) (e : PyError) : Py Unit := do
  let text ← rollbackUpdate (some (reasonOf step e))
  raise (.install text)

/-- A step of the clean-up: only a warning if it fails. -/
def tidy (p : Py Unit) : Py Unit :=
  catching (fun e => e.isInstall || e.isOs) p (fun _ => tool .say)

def finish : Py Unit := do
  tidy (tool (.maintenance false))
  tidy (tool .discardSnapshot)
  tidy (tool .unlinkAccess)
  tidy rmtree
  tool .say

/-- After the commit point. An exception of the `fsync` only ends the `try`. -/
def committed : Py Unit :=
  (Action.attempt (tool .fsyncDir)).bind (fun r => match r with
    | .ok _ => finish
    | .error _ => (shielded (pure ())).bind (fun _ => finish))

def updateFrom (own : Rendering) (bundle : Bundle) (drain wasRunning : Bool)
    (state cfg : Content) : Py Unit :=
  (Action.lift (preparing bundle drain wasRunning state)).bind (fun r => match r with
    | .error (step, e) => shielded (abandon wasRunning step e)
    | .ok _ => (Action.lift (applying own bundle state cfg)).bind (fun r => match r with
      | .error (step, e) => shielded (revert step e)
      | .ok _ => committed))

def unfinished : PyError := .install
  "An earlier update did not finish. Run pgfyctl rollback-update first."

def update (own : Rendering) (bundle : Bundle) (drain : Bool) : Py Unit := do
  let state ← tool (.read .stateJson)
  let earlier ← tool .dirExists
  raiseIf earlier unfinished
  tool .prepare
  let cfg ← tool (.read .installJson)
  let status ← tool .appStatus
  updateFrom own bundle drain (status == .running) state cfg

end Pgfy.Deploy
