import Pgfy.Store.Backups

/-! # Statements on the job queue

    The queue is the `jobs` table. Only one backup or restore may be queued or
    running at a time; a deletion may queue behind another job. Finishing
    writes address a job by its id alone.
-/

namespace Pgfy

open Calendar Storage

/-- Queued or running. -/
def Job.active (j : Job) : Bool := j.state = .queued || j.state = .running

theorem Job.active_of_running {j : Job} (h : j.state = .running) : j.active = true := by
  simp [Job.active, h]

theorem Job.active_of_queued {j : Job} (h : j.state = .queued) : j.active = true := by
  simp [Job.active, h]

def JobKind.text : JobKind → String
  | backup => "backup"
  | restore => "restore"
  | delete => "delete"

/-- `ORDER BY created_at, id`. -/
def Job.OlderFirst (a b : Job) : Prop :=
  a.createdAt < b.createdAt ∨ (a.createdAt = b.createdAt ∧ a.id ≤ b.id)

instance (a b : Job) : Decidable (a.OlderFirst b) := by unfold Job.OlderFirst; infer_instance

/-- Spaces out repeated failures. -/
def backoff (failures : ℕ) (interval : ℤ) : ℤ :=
  if failures ≤ 1 then 15 * 60 * second
  else if failures = 2 then hour
  else if failures = 3 then 4 * hour
  else interval

namespace Database

/-- Whether a project row with this id exists, as a foreign key requires. -/
def hasProject (db : Database) (id : String) : Bool := db.projects.any (·.id = id)

/-- Records one event; events are only ever added here. -/
def recordAlertEvent (kind : EventKind) (subject summary detail : String) (now : Instant)
    (db : Database) : Database :=
  { db with alertEvents := db.alertEvents ++ [⟨kind, subject, summary, detail, unix now⟩] }

/-! ### Enqueueing -/

/-- The schedule row of a project once an attempt has been recorded. -/
def recordAttempt (projectID : String) (now : Instant) (db : Database) : Database :=
  { db with
    schedules := Table.upsert BackupSchedule.projectID projectID (fun old =>
      { old.getD { projectID := projectID } with lastAttemptAt := unix now }) db.schedules }

/-- Adds a job row; ids are unique and a named project must exist. -/
def insertJob (j : Job) (db : Database) : Except Err Database :=
  if db.jobs.any (·.id = j.id) then .error .driver
  else if !(j.projectID.all db.hasProject) then .error .driver
  else .ok { db with jobs := db.jobs ++ [j] }

/-- Records a heavy job, and with a backup its attempt, unless an update holds
    the installation quiet or any job is queued or running. -/
def enqueue (id : String) (kind : JobKind) (projectID : Option String) (input : JobInput)
    (scheduled : Bool) (now : Instant) (db : Database) : Except Err Database :=
  if db.maintenance then .error .maintenance
  else if db.jobs.any Job.active then .error .jobBusy
  else
    match db.insertJob { id := id, kind := kind, projectID := projectID, input := input,
                         createdAt := unix now, scheduled := scheduled } with
    | .error e => .error e
    | .ok db =>
      match kind, projectID with
      | .backup, some p => .ok (db.recordAttempt p now)
      | _, _ => .ok db

variable {db db' : Database}

theorem insertJob_ok {j : Job} (h : db.insertJob j = .ok db') :
    (∀ o ∈ db.jobs, o.id ≠ j.id) ∧ (∀ p, j.projectID = some p → db.hasProject p = true) ∧
      db' = { db with jobs := db.jobs ++ [j] } := by
  unfold insertJob at h
  split at h
  · cases h
  · next hid =>
    split at h
    · cases h
    · next hp =>
      cases h
      refine ⟨by simpa using hid, ?_, rfl⟩
      intro p hj
      simpa [hj] using hp

/-- The row `enqueue` adds. -/
def newJob (id : String) (kind : JobKind) (projectID : Option String) (input : JobInput)
    (scheduled : Bool) (now : Instant) : Job :=
  { id := id, kind := kind, projectID := projectID, input := input, createdAt := unix now,
    scheduled := scheduled }

/-- Every row of `schedules` was there before or is of a project that exists. -/
def SchedulesOf (db : Database) (schedules : List BackupSchedule) : Prop :=
  ∀ r ∈ schedules, r ∈ db.schedules ∨ db.hasProject r.projectID = true

theorem schedulesOf_upsert {p : String} {f : Option BackupSchedule → BackupSchedule}
    (hp : db.hasProject p = true)
    (hf : (f (Table.find BackupSchedule.projectID p db.schedules)).projectID = p) :
    db.SchedulesOf (Table.upsert BackupSchedule.projectID p f db.schedules) := by
  intro r hr
  rcases Table.mem_upsert.mp hr with rfl | hr
  · right
    rw [hf]
    exact hp
  · exact Or.inl hr.1

theorem enqueue_ok {id : String} {kind : JobKind} {projectID : Option String} {input : JobInput}
    {scheduled : Bool} {now : Instant}
    (h : db.enqueue id kind projectID input scheduled now = .ok db') :
    db.maintenance = false ∧ (∀ o ∈ db.jobs, o.active = false) ∧ (∀ o ∈ db.jobs, o.id ≠ id) ∧
      (∀ p, projectID = some p → db.hasProject p = true) ∧
      ∃ schedules, db.SchedulesOf schedules ∧ db' = { db with
        jobs := db.jobs ++ [newJob id kind projectID input scheduled now]
        schedules := schedules } := by
  unfold enqueue at h
  split at h
  · cases h
  next hm =>
  split at h
  · cases h
  next hactive =>
  split at h
  · cases h
  next db₁ hinsert =>
  obtain ⟨hid, hp, rfl⟩ := insertJob_ok hinsert
  refine ⟨by simpa using hm, by simpa using hactive, hid, hp, ?_⟩
  split at h
  · cases h
    refine ⟨_, schedulesOf_upsert (hp _ rfl) ?_, rfl⟩
    cases hfind : Table.find BackupSchedule.projectID _ db.schedules with
    | none => rfl
    | some old => exact (Table.find_eq_some hfind).2
  · cases h
    exact ⟨_, fun r hr => Or.inl hr, rfl⟩

/-! ### Reading -/

def job (id : String) (db : Database) : Except Err Job :=
  match Table.find Job.id id db.jobs with
  | some j => .ok j
  | none => .error .projectNotFound

/-- The newest jobs of a project. -/
def projectJobs (projectID : String) (limit : ℕ) (db : Database) : List Job :=
  ((db.jobs.filter (·.projectID = some projectID)).insertionSort
    (fun a b => b.OlderFirst a)).take limit

/-! ### Running -/

/-- Changes the row of one job. -/
def modifyJob (id : String) (f : Job → Job) (db : Database) : Database :=
  { db with jobs := Table.modify Job.id id f db.jobs }

/-- Where a backup intends to write, recorded before it uploads anything. -/
def setJobTarget (id : String) (target key : Text) : Database → Database :=
  modifyJob id (fun j => { j with targetStorage := target, targetKey := key })

/-- The oldest queued job. -/
def oldestQueued (db : Database) : Option Job :=
  ((db.jobs.filter (·.state = .queued)).insertionSort Job.OlderFirst).head?

/-- Moves the oldest queued job to running; queued work waits for an update. -/
def claimJob (now : Instant) (db : Database) : Option Job × Database :=
  match db.oldestQueued with
  | none => (none, db)
  | some j =>
    if db.maintenance then (none, db)
    else (some { j with state := .running, stage := "starting", startedAt := unix now },
      db.modifyJob j.id (fun j => { j with
        state := .running, stage := "starting", startedAt := unix now, stageAt := unix now }))

/-- Notes the stage of a running job. -/
def setJobStage (id : String) (stage : String) (now : Instant) : Database → Database :=
  modifyJob id (fun j => if j.state = .running
    then { j with stage := stage, stageAt := unix now } else j)

/-! ### Finishing -/

/-- Ends a job, whatever state it is in. -/
def finishJob (id : String) (state : JobState) (stage error : String) (now : Instant) :
    Database → Database :=
  modifyJob id (fun j => { j with
    state := state, stage := stage, error := error, finishedAt := unix now })

/-- The schedule state after an attempt; the project must exist. -/
def recordOutcome (projectID : String) (succeeded : Bool) (now : Instant) (interval : ℤ)
    (db : Database) : Except Err Database :=
  if !db.hasProject projectID then .error .driver
  else
    .ok { db with
      schedules := Table.upsert BackupSchedule.projectID projectID (fun old =>
        let failures := if succeeded then 0 else (old.map (·.failures)).getD 0 + 1
        { projectID := projectID
          lastAttemptAt := unix now
          failures := failures
          nextAttemptAt := if succeeded then 0 else unix (now + backoff failures interval) })
        db.schedules }

/-- Adds a history row; ids and object keys are unique. -/
def insertBackup (b : Backup) (db : Database) : Except Err Database :=
  if db.backups.any (fun o => o.id = b.id ∨ o.objectKey = b.objectKey) then .error .driver
  else if !(b.projectID.all db.hasProject) then .error .driver
  else .ok { db with backups := db.backups ++ [b] }

/-- Finishes a backup: the job row, its history row and the schedule outcome. -/
def completeBackupJob (id : String) (projectID : Option String) (state : JobState)
    (stage error : String) (backup : Option Backup) (scheduled : Bool) (now : Instant)
    (interval : ℤ) (db : Database) : Except Err Database :=
  let db := db.finishJob id state stage error now
  match (match backup with
    | some b => db.insertBackup b
    | none => .ok db) with
  | .error e => .error e
  | .ok db =>
    match projectID with
    | none => .ok db
    | some p =>
      if state = .succeeded ∨ scheduled then
        db.recordOutcome p (state = .succeeded) now interval
      else .ok db

theorem recordOutcome_ok {p : String} {succeeded : Bool} {now : Instant} {interval : ℤ}
    (h : db.recordOutcome p succeeded now interval = .ok db') :
    ∃ schedules, db.SchedulesOf schedules ∧ db' = { db with schedules := schedules } := by
  unfold recordOutcome at h
  split at h
  · cases h
  · next hp =>
    cases h
    exact ⟨_, schedulesOf_upsert (by simpa using hp) rfl, rfl⟩

theorem insertBackup_ok {b : Backup} (h : db.insertBackup b = .ok db') :
    db' = { db with backups := db.backups ++ [b] } := by
  unfold insertBackup at h
  split at h
  · cases h
  · split at h
    · cases h
    · cases h
      rfl

theorem completeBackupJob_ok {id : String} {projectID : Option String} {state : JobState}
    {stage error : String} {backup : Option Backup} {scheduled : Bool} {now : Instant}
    {interval : ℤ}
    (h : db.completeBackupJob id projectID state stage error backup scheduled now interval =
      .ok db') :
    ∃ backups schedules, db.SchedulesOf schedules ∧ db' =
      { db.finishJob id state stage error now with
        backups := backups, schedules := schedules } := by
  unfold completeBackupJob at h
  dsimp only at h
  split at h
  · cases h
  next db₁ hbackup =>
  have hdb₁ : ∃ backups, db₁ = { db.finishJob id state stage error now with
      backups := backups } := by
    cases backup with
    | none =>
      cases hbackup
      exact ⟨db.backups, rfl⟩
    | some b => exact ⟨_, insertBackup_ok hbackup⟩
  obtain ⟨backups, rfl⟩ := hdb₁
  split at h
  · cases h
    exact ⟨backups, db.schedules, fun r hr => Or.inl hr, rfl⟩
  · split at h
    · obtain ⟨schedules, hs, rfl⟩ := recordOutcome_ok h
      exact ⟨backups, schedules, hs, rfl⟩
    · cases h
      exact ⟨backups, db.schedules, fun r hr => Or.inl hr, rfl⟩

/-- A job as `interruptRunningJobs` leaves it. -/
def interrupted (now : Instant) (j : Job) : Job :=
  { j with
    state := .interrupted
    error := "The application restarted before this job finished."
    finishedAt := unix now }

/-- One job that was running when the process died. -/
def interruptJob (now : Instant) (interval : ℤ) (db : Database) (j : Job) :
    Except Err Database :=
  let db := db.modifyJob j.id (interrupted now)
  let outcome := if j.kind = .delete then "the deletion resumes automatically."
    else "it was not completed."
  let db := db.recordAlertEvent .jobInterrupted j.id
    ("A " ++ j.kind.text ++ " was interrupted by an application restart")
    ("Job " ++ j.id ++ " stopped at stage " ++ j.stage ++ "; " ++ outcome) now
  match j.kind, j.scheduled, j.projectID with
  | .backup, true, some p => db.recordOutcome p false now interval
  | _, _, _ => .ok db

/-- Run at startup: a job that was running cannot have finished. -/
def interruptRunningJobs (now : Instant) (interval : ℤ) (db : Database) : Except Err Database :=
  (db.jobs.filter (·.state = .running)).foldlM (interruptJob now interval) db

theorem interruptJob_ok {now : Instant} {interval : ℤ} {j : Job}
    (h : interruptJob now interval db j = .ok db') :
    ∃ event schedules, event.kind = .jobInterrupted ∧ db.SchedulesOf schedules ∧
      db' = { db with
        jobs := Table.modify Job.id j.id (interrupted now) db.jobs
        alertEvents := db.alertEvents ++ [event]
        schedules := schedules } := by
  unfold interruptJob at h
  dsimp only at h
  split at h
  · obtain ⟨schedules, hs, rfl⟩ := recordOutcome_ok h
    exact ⟨_, schedules, rfl, hs, rfl⟩
  · cases h
    exact ⟨_, db.schedules, rfl, fun r hr => Or.inl hr, rfl⟩

theorem foldlM_cons_ok {σ α ε : Type} {f : σ → α → Except ε σ} {a : α} {l : List α} {s s' : σ}
    (h : (a :: l).foldlM f s = .ok s') : ∃ s₁, f s a = .ok s₁ ∧ l.foldlM f s₁ = .ok s' := by
  rw [List.foldlM_cons] at h
  cases ha : f s a with
  | error e =>
    rw [ha] at h
    cases h
  | ok s₁ =>
    rw [ha] at h
    exact ⟨s₁, rfl, h⟩

/-- Interrupting a list of jobs changes their rows and adds events of that kind. -/
theorem foldlM_interruptJob_ok {now : Instant} {interval : ℤ} {js : List Job}
    (h : js.foldlM (interruptJob now interval) db = .ok db') :
    ∃ events schedules, (∀ e ∈ events, e.kind = .jobInterrupted) ∧ db.SchedulesOf schedules ∧
      db' = { db with
        jobs := db.jobs.map (fun j => if j.id ∈ js.map Job.id then interrupted now j else j)
        alertEvents := db.alertEvents ++ events
        schedules := schedules } := by
  induction js generalizing db with
  | nil =>
    cases h
    exact ⟨[], db'.schedules, by simp, fun r hr => Or.inl hr, by simp⟩
  | cons j rest ih =>
    obtain ⟨db₁, hj, h⟩ := foldlM_cons_ok h
    obtain ⟨event, s₁, hkind, hs₁, rfl⟩ := interruptJob_ok hj
    obtain ⟨events, s₂, hkinds, hs₂, rfl⟩ := ih h
    refine ⟨event :: events, s₂, ?_, ?_, ?_⟩
    · intro e he
      rcases List.mem_cons.mp he with rfl | he
      · exact hkind
      · exact hkinds e he
    · intro r hr
      rcases hs₂ r hr with hr | hr
      · exact hs₁ r hr
      · exact Or.inr hr
    · -- interrupting a row twice is interrupting it once
      have hjobs : (Table.modify Job.id j.id (interrupted now) db.jobs).map (fun o =>
            if o.id ∈ rest.map Job.id then interrupted now o else o) =
          db.jobs.map (fun o =>
            if o.id ∈ (j :: rest).map Job.id then interrupted now o else o) := by
        rw [Table.modify, List.map_map]
        apply List.map_congr_left
        intro o _
        by_cases h₁ : o.id = j.id <;> by_cases h₂ : o.id ∈ rest.map Job.id <;>
          simp_all [interrupted]
      rw [hjobs]
      simp

theorem interruptRunningJobs_ok {now : Instant} {interval : ℤ}
    (h : db.interruptRunningJobs now interval = .ok db') :
    ∃ events schedules, (∀ e ∈ events, e.kind = .jobInterrupted) ∧ db.SchedulesOf schedules ∧
      db' = { db with
        jobs := db.jobs.map (fun j =>
          if j.id ∈ (db.jobs.filter (·.state = .running)).map Job.id
          then interrupted now j else j)
        alertEvents := db.alertEvents ++ events
        schedules := schedules } :=
  foldlM_interruptJob_ok h

end Database

end Pgfy
