import Pgfy.Storage.Publication
import Pgfy.Store.Schedule

/-! # The backup queue at work

    One worker schedules backups, claims queued jobs and runs them. Requests
    enqueue manual backups at any moment. The log says, newest first, which
    attempts were enqueued, when attempts ended, which folders jobs chose and what
    they uploaded.

    Everything else in the installation may change the database between two
    steps, as long as it leaves the schedule and the active backup jobs alone and
    adds nothing to the backup history.
-/

namespace Pgfy

open Calendar Storage

/-- The folder a job has chosen for its backup. -/
structure Upload where
  settings : Settings
  project : Project
  now : Instant
deriving DecidableEq

/-- The folder's key; the time is cut to the second. -/
def Upload.directory (u : Upload) : Text :=
  u.settings.backupKey u.project.dbName (ofUnix (unix u.now))

def Upload.archiveKey (u : Upload) : Text := u.directory ++ '/' :: archiveFile

def Upload.manifestKey (u : Upload) : Text := u.directory ++ '/' :: manifestFile

/-- How far a backup job is. -/
inductive Progress where
  | preparing
  | named (u : Upload)
  | archived (u : Upload)
  | published (u : Upload)
deriving DecidableEq

/-- What the worker is doing. -/
inductive Worker where
  | idle
  /-- The scheduler has read the candidates and is about to enqueue the first. -/
  | choosing (now : Instant) (candidates : List Project)
  | working (job : Job) (progress : Progress)
deriving DecidableEq

inductive QueueNote where
  /-- A backup was enqueued; by the scheduler, out of these candidates. -/
  | enqueued (time : ℤ) (projectID : String) (candidates : Option (List Project))
  /-- A backup ended or was interrupted. -/
  | outcome (time : ℤ)
  | named (jobID : String) (u : Upload)
  | uploaded (jobID : String) (u : Upload) (key : Text)
  /-- The end of a job could not be recorded; `known` if its object key already was. -/
  | unrecorded (jobID : String) (known : Bool)
deriving DecidableEq

structure QueueState where
  db : Database := {}
  worker : Worker := .idle
  log : List QueueNote := []

namespace QueueState

/-- Enqueues a backup if the store takes it. -/
def enqueue (id projectID : String) (candidates : Option (List Project)) (now : Instant)
    (s : QueueState) : QueueState :=
  let scheduled := candidates.isSome
  match s.db.enqueue id .backup (some projectID) (.backup scheduled) scheduled now with
  | .ok db => { s with db := db, log := .enqueued (unix now) projectID candidates :: s.log }
  | .error _ => s

/-- The first half of `scheduleBackups`: the candidates are read. -/
def consider (installationID : String) (target : Text) (now dueBefore : Instant)
    (s : QueueState) : QueueState :=
  let candidates := s.db.backupCandidates target installationID now dueBefore
  { s with worker := .choosing now candidates }

/-- The second half of `scheduleBackups`: the first candidate is tried. -/
def choose (id : String) (now : Instant) (candidates : List Project) (s : QueueState) :
    QueueState :=
  let idle := { s with worker := .idle }
  match candidates with
  | [] => idle
  | p :: _ => idle.enqueue id p.id (some candidates) now

/-- The job's folder is recorded before anything is uploaded. -/
def name (j : Job) (u : Upload) (s : QueueState) : QueueState where
  db := s.db.setJobTarget j.id u.settings.target u.directory
  worker := .working j (.named u)
  log := .named j.id u :: s.log

/-- One object of a backup is written, in part or whole. -/
def upload (j : Job) (u : Upload) (progress : Progress) (key : Text) (s : QueueState) :
    QueueState :=
  { s with worker := .working j progress, log := .uploaded j.id u key :: s.log }

/-- The history row of a published backup. -/
def record (id : String) (sizeBytes : ℤ) (j : Job) (u : Upload) : Backup where
  id := id
  projectID := some u.project.id
  jobID := j.id
  objectKey := u.manifestKey
  sizeBytes := sizeBytes
  createdAt := unix u.now
  storageTarget := u.settings.target

/-- The end of a backup job in `execute`. If it cannot be recorded, the job stays
    as it is. -/
def complete (j : Job) (state : JobState) (stage error : String) (backup : Option Backup)
    (now : Instant) (interval : ℤ) (s : QueueState) : QueueState :=
  match s.db.completeBackupJob j.id j.projectID state stage error backup j.scheduled now
      interval with
  | .ok db => { db := db, worker := .idle, log := .outcome (unix now) :: s.log }
  | .error _ =>
    { s with
      worker := .idle
      log := .unrecorded j.id
        (backup.any (fun b => s.db.backups.any (fun o => o.objectKey = b.objectKey))) :: s.log }

/-- A backup is running. -/
def busy (s : QueueState) : Bool :=
  s.db.jobs.any (fun j => j.kind = .backup ∧ j.state = .running)

/-- The process ends and starts again. -/
def restart (now : Instant) (interval : ℤ) (s : QueueState) : QueueState :=
  match s.db.interruptRunningJobs now interval with
  | .ok db =>
    { db := db, worker := .idle, log := if s.busy then .outcome (unix now) :: s.log else s.log }
  | .error _ => { s with worker := .idle }

end QueueState

/-- A change by the rest of the installation. -/
structure Database.Aside (db db' : Database) : Prop where
  schedules : db'.schedules = db.schedules
  jobs : ∀ j : Job, j.kind = .backup → j.active = true → (j ∈ db'.jobs ↔ j ∈ db.jobs)
  ids : (db'.jobs.map Job.id).Nodup
  backups : ∀ b ∈ db'.backups, b ∈ db.backups

inductive QueueStep (installationID : String) : QueueState → QueueState → Prop where
  /-- The first half of `scheduleBackups`, with storage set up and the bucket read. -/
  | consider {s} (settings : Settings) (policy : BackupPolicy) (now)
      (idle : s.worker = .idle) (on : s.db.maintenance = false)
      (known : (s.db.storageTarget settings.target).reconciledAt ≠ 0) :
      QueueStep installationID s (s.consider installationID settings.target now
        (policy.dueBefore now))
  | choose {s} (id) {now candidates} (at_ : s.worker = .choosing now candidates) :
      QueueStep installationID s (s.choose id now candidates)
  /-- A manual backup. -/
  | request {s} (id projectID now) :
      QueueStep installationID s (s.enqueue id projectID none now)
  | claim {s} (now) {j db} (idle : s.worker = .idle) (claimed : s.db.claimJob now = (some j, db))
      (backup : j.kind = .backup) :
      QueueStep installationID s { s with db := db, worker := .working j .preparing }
  /-- `runBackup` reads the clock and records where it is going to write. -/
  | name {s} (settings p now) {j} (at_ : s.worker = .working j .preparing)
      (project : p ∈ s.db.projects) (own : j.projectID = some p.id) (ready : p.stage = .ready)
      (sound : p.failed = false) :
      QueueStep installationID s (s.name j ⟨settings, p, now⟩)
  | archive {s j u} (at_ : s.worker = .working j (.named u)) :
      QueueStep installationID s (s.upload j u (.archived u) u.archiveKey)
  | publish {s j u} (at_ : s.worker = .working j (.archived u)) :
      QueueStep installationID s (s.upload j u (.published u) u.manifestKey)
  | succeed {s} (id sizeBytes now interval) {j u} (at_ : s.worker = .working j (.published u)) :
      QueueStep installationID s
        (s.complete j .succeeded "done" "" (some (QueueState.record id sizeBytes j u)) now interval)
  /-- Any step of `runBackup` can fail. -/
  | fail {s} (stage error now interval) {j progress} (at_ : s.worker = .working j progress) :
      QueueStep installationID s (s.complete j .failed stage error none now interval)
  | restart {s} (now interval) : QueueStep installationID s (s.restart now interval)
  | aside {s db} (change : s.db.Aside db) : QueueStep installationID s { s with db := db }

/-- The states of runs that start with no jobs, no schedule and no history. -/
inductive QueueRun (installationID : String) : QueueState → Prop where
  | start {s} (jobs : s.db.jobs = []) (schedules : s.db.schedules = [])
      (backups : s.db.backups = []) (idle : s.worker = .idle) (log : s.log = []) :
      QueueRun installationID s
  | step {s s'} (run : QueueRun installationID s) (step : QueueStep installationID s s') :
      QueueRun installationID s'

namespace QueueState

variable {s : QueueState}

/-- What an enqueue does: nothing, or the job and the attempt are recorded while
    no job was queued or running. -/
theorem enqueue_cases (id projectID : String) (candidates : Option (List Project))
    (now : Instant) :
    s.enqueue id projectID candidates now = s ∨
      ∃ db, s.db.enqueue id .backup (some projectID) (.backup candidates.isSome)
          candidates.isSome now = .ok db ∧
        s.enqueue id projectID candidates now =
          { s with db := db, log := .enqueued (unix now) projectID candidates :: s.log } := by
  unfold enqueue
  dsimp only
  split
  · next db h => exact Or.inr ⟨db, h, rfl⟩
  · exact Or.inl rfl

theorem complete_cases (j : Job) (state : JobState) (stage error : String)
    (backup : Option Backup) (now : Instant) (interval : ℤ) :
    (∃ db, s.db.completeBackupJob j.id j.projectID state stage error backup j.scheduled now
        interval = .ok db ∧
      s.complete j state stage error backup now interval =
        { db := db, worker := .idle, log := .outcome (unix now) :: s.log }) ∨
    (s.complete j state stage error backup now interval =
      { s with
        worker := .idle
        log := .unrecorded j.id
          (backup.any (fun b => s.db.backups.any (fun o => o.objectKey = b.objectKey))) ::
            s.log }) := by
  unfold complete
  split
  · next db h => exact Or.inl ⟨db, h, rfl⟩
  · exact Or.inr rfl

theorem restart_cases (now : Instant) (interval : ℤ) :
    (∃ db, s.db.interruptRunningJobs now interval = .ok db ∧ s.restart now interval =
      { db := db, worker := .idle,
        log := if s.busy then .outcome (unix now) :: s.log else s.log }) ∨
    s.restart now interval = { s with worker := .idle } := by
  unfold restart
  split
  · next db h => exact Or.inl ⟨db, h, rfl⟩
  · exact Or.inr rfl

end QueueState

end Pgfy
