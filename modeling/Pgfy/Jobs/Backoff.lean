import Pgfy.Calls
import Pgfy.Store.Schedule

/-! # The schedule state as a function of the history

    Of a project's schedule row, the number of failures and the time of the next
    attempt are written where attempts end: by `CompleteBackupJob`, and at startup
    by `InterruptRunningJobs`. Here the run of all statements of the store is
    followed together with the attempts that have ended, and the two numbers are
    read off these.
-/

namespace Pgfy

open Calendar Storage

/-- A backup attempt that has ended. -/
structure Attempt where
  projectID : Option String
  scheduled : Bool
  /-- succeeded, failed or interrupted -/
  outcome : JobState
  time : Instant
  /-- the target interval in force when it ended -/
  interval : ℤ
deriving DecidableEq

/-- The attempt of a job that ends. -/
def Job.attempt (j : Job) (outcome : JobState) (time : Instant) (interval : ℤ) : Attempt :=
  ⟨j.projectID, j.scheduled, outcome, time, interval⟩

/-! ### Runs -/

/-- A statement of the store, with the attempts it ends, newest first. -/
inductive ScheduleStep : Database → List Attempt → Database → Prop
  | enqueue {db db' : Database} (id kind projectID input scheduled now)
      (h : db.enqueue id kind projectID input scheduled now = .ok db') : ScheduleStep db [] db'
  /-- The end of a running backup in `execute`, which has the job as it was claimed. -/
  | complete {db db' : Database} (j : Job) (state stage error backup now interval)
      (running : ∃ o ∈ db.jobs, o.id = j.id ∧ o.kind = .backup ∧ o.state = .running ∧
        o.scheduled = j.scheduled)
      (ended : state = .succeeded ∨ state = .failed)
      (h : db.completeBackupJob j.id j.projectID state stage error backup j.scheduled now
        interval = .ok db') : ScheduleStep db [j.attempt state now interval] db'
  /-- The start of the process. -/
  | restart {db db' : Database} (now interval)
      (h : db.interruptRunningJobs now interval = .ok db') :
      ScheduleStep db (((db.jobs.filter (·.state = .running)).filter (·.kind = .backup)).reverse.map
        (·.attempt .interrupted now interval)) db'
  /-- Any other statement that is not the deletion of a project. -/
  | other {db db' : Database} {β : Type} {q : StoreCall β} {a : β} (hq : ¬ q.WritesSchedules)
      (h : q.run db = .ok (a, db')) : ScheduleStep db [] db'

/-- Runs from an installation without schedules, with the attempts that have
    ended, newest first. -/
inductive ScheduleRun : Database → List Attempt → Prop
  | start {db : Database} (schedules : db.schedules = []) : ScheduleRun db []
  | step {db db' : Database} {history ended : List Attempt} (run : ScheduleRun db history)
      (step : ScheduleStep db ended db') : ScheduleRun db' (ended ++ history)
  /-- A project is deleted. Its attempts go with it, so that a project that is
      given its id later starts anew. -/
  | delete {db db' : Database} {history : List Attempt} (jobID : String) (p : Project)
      (now : Instant) (run : ScheduleRun db history)
      (h : db.completeProjectDeletion jobID p now = .ok db') :
      ScheduleRun db' (history.filter (·.projectID ≠ some p.id))

/-! ### The state of a schedule -/

/-- The number of failures and the time of the next attempt. -/
def Database.backoffState (projectID : String) (db : Database) : ℕ × ℤ :=
  ((db.backupSchedule projectID).failures, (db.backupSchedule projectID).nextAttemptAt)

/-- What an attempt makes of the state. -/
def Attempt.after (projectID : String) (a : Attempt) (state : ℕ × ℤ) : ℕ × ℤ :=
  if a.projectID ≠ some projectID then state
  else if a.outcome = .succeeded then (0, 0)
  else if a.scheduled then
    (state.1 + 1, unix (a.time + backoff (state.1 + 1) a.interval))
  else state

section
variable {p : String} {a : Attempt} {state : ℕ × ℤ}

theorem Attempt.after_other (h : a.projectID ≠ some p) : a.after p state = state := if_pos h

theorem Attempt.after_succeeded (h : a.projectID = some p) (hs : a.outcome = .succeeded) :
    a.after p state = (0, 0) := by
  rw [after, if_neg (not_not.mpr h), if_pos hs]

theorem Attempt.after_failed (h : a.projectID = some p) (hs : a.outcome ≠ .succeeded)
    (hscheduled : a.scheduled = true) :
    a.after p state = (state.1 + 1, unix (a.time + backoff (state.1 + 1) a.interval)) := by
  rw [after, if_neg (not_not.mpr h), if_neg hs, if_pos hscheduled]

/-- A manual attempt that does not succeed changes nothing. -/
theorem Attempt.after_manual (hs : a.outcome ≠ .succeeded) (hmanual : a.scheduled = false) :
    a.after p state = state := by
  by_cases h : a.projectID = some p
  · rw [after, if_neg (not_not.mpr h), if_neg hs, if_neg (by simp [hmanual])]
  · exact after_other h

end

/-- The scheduled attempts of a project that failed or were interrupted since
    the last one that succeeded, newest first. -/
def failuresSince (projectID : String) (history : List Attempt) : List Attempt :=
  ((history.filter (·.projectID = some projectID)).takeWhile (·.outcome ≠ .succeeded)).filter
    (·.scheduled)

/-- The state that the history says. -/
def stateOf (projectID : String) (history : List Attempt) : ℕ × ℤ :=
  match failuresSince projectID history with
  | [] => (0, 0)
  | last :: earlier => (earlier.length + 1,
      unix (last.time + backoff (earlier.length + 1) last.interval))

section
variable {p : String} {a : Attempt} {history : List Attempt}

theorem failuresSince_other (h : a.projectID ≠ some p) :
    failuresSince p (a :: history) = failuresSince p history := by
  unfold failuresSince
  rw [List.filter_cons_of_neg (by simpa using h)]

theorem failuresSince_succeeded (h : a.projectID = some p) (hs : a.outcome = .succeeded) :
    failuresSince p (a :: history) = [] := by
  unfold failuresSince
  rw [List.filter_cons_of_pos (by simpa using h), List.takeWhile_cons_of_neg (by simpa using hs)]
  rfl

theorem failuresSince_failed (h : a.projectID = some p) (hs : a.outcome ≠ .succeeded) :
    failuresSince p (a :: history) =
      if a.scheduled then a :: failuresSince p history else failuresSince p history := by
  unfold failuresSince
  rw [List.filter_cons_of_pos (by simpa using h), List.takeWhile_cons_of_pos (by simpa using hs),
    List.filter_cons]

/-- One more attempt. -/
theorem stateOf_cons : stateOf p (a :: history) = a.after p (stateOf p history) := by
  by_cases hp : a.projectID = some p
  · by_cases hs : a.outcome = .succeeded
    · rw [Attempt.after_succeeded hp hs, stateOf, failuresSince_succeeded hp hs]
    · cases hscheduled : a.scheduled with
      | true =>
        rw [Attempt.after_failed hp hs hscheduled, stateOf, failuresSince_failed hp hs,
          if_pos hscheduled]
        unfold stateOf
        cases failuresSince p history <;> rfl
      | false =>
        rw [Attempt.after_manual hs hscheduled, stateOf, failuresSince_failed hp hs,
          if_neg (by simp [hscheduled])]
        rfl
  · rw [Attempt.after_other hp, stateOf, failuresSince_other hp]
    rfl

theorem stateOf_append (ended : List Attempt) :
    stateOf p (ended ++ history) = ended.foldr (Attempt.after p) (stateOf p history) := by
  induction ended with
  | nil => rfl
  | cons a ended ih => rw [List.cons_append, stateOf_cons, ih, List.foldr_cons]

end

/-! ### What a statement does to the state -/

namespace Database

variable {db db' : Database} {p q : String} {now : Instant} {interval : ℤ}

theorem backoffState_congr (h : db'.schedules = db.schedules) :
    db'.backoffState q = db.backoffState q := by
  unfold backoffState backupSchedule
  rw [h]

/-- A schedule row put in place sets its project's state and no other. -/
theorem backoffState_upsert {f : Option BackupSchedule → BackupSchedule}
    (hkey : (f (Table.find BackupSchedule.projectID p db.schedules)).projectID = p) :
    backoffState q { db with schedules := Table.upsert BackupSchedule.projectID p f db.schedules } =
      if q = p then
        ((f (Table.find BackupSchedule.projectID p db.schedules)).failures,
          (f (Table.find BackupSchedule.projectID p db.schedules)).nextAttemptAt)
      else db.backoffState q := by
  unfold backoffState backupSchedule
  by_cases hq : q = p
  · subst hq
    rw [if_pos rfl]
    simp only
    rw [Table.find_upsert_self hkey, Option.getD_some]
  · rw [if_neg hq]
    simp only
    rw [Table.find_upsert_of_ne hkey hq]

/-- Recording that an attempt starts leaves the state alone. -/
theorem backoffState_recordAttempt :
    (db.recordAttempt p now).backoffState q = db.backoffState q := by
  unfold recordAttempt
  rw [backoffState_upsert]
  · by_cases hq : q = p
    · subst hq
      rw [if_pos rfl]
      rfl
    · rw [if_neg hq]
  · cases hfind : Table.find BackupSchedule.projectID p db.schedules with
    | none => rfl
    | some old => exact (Table.find_eq_some hfind).2

theorem backoffState_recordOutcome {succeeded : Bool}
    (h : db.recordOutcome p succeeded now interval = .ok db') :
    db'.backoffState q = if q = p then
        if succeeded then (0, 0)
        else ((db.backoffState q).1 + 1,
          unix (now + backoff ((db.backoffState q).1 + 1) interval))
      else db.backoffState q := by
  unfold recordOutcome at h
  split at h
  · cases h
  · cases h
    rw [backoffState_upsert rfl]
    by_cases hq : q = p
    · subst hq
      rw [if_pos rfl, if_pos rfl]
      have hfailures : ((Table.find BackupSchedule.projectID q db.schedules).map
          (·.failures)).getD 0 = (db.backoffState q).1 := by
        unfold backoffState backupSchedule
        cases Table.find BackupSchedule.projectID q db.schedules <;> rfl
      cases succeeded with
      | true => rfl
      | false => simp only [Bool.false_eq_true, if_false, hfailures]
    · rw [if_neg hq, if_neg hq]

theorem backoffState_enqueue {id : String} {kind : JobKind} {projectID : Option String}
    {input : JobInput} {scheduled : Bool}
    (h : db.enqueue id kind projectID input scheduled now = .ok db') :
    db'.backoffState q = db.backoffState q := by
  unfold enqueue at h
  split at h
  · cases h
  split at h
  · cases h
  split at h
  · cases h
  next db₁ hinsert =>
  obtain ⟨-, -, rfl⟩ := insertJob_ok hinsert
  split at h
  · cases h
    rw [backoffState_recordAttempt]
    rfl
  · cases h
    rfl

/-- The end of a backup does what its attempt says. -/
theorem backoffState_completeBackupJob {j : Job} {state : JobState} {stage error : String}
    {backup : Option Backup}
    (h : db.completeBackupJob j.id j.projectID state stage error backup j.scheduled now interval =
      .ok db') :
    db'.backoffState q = (j.attempt state now interval).after q (db.backoffState q) := by
  unfold completeBackupJob at h
  dsimp only at h
  split at h
  · cases h
  next db₁ hbackup =>
  have hsame : db₁.backoffState q = db.backoffState q := by
    refine backoffState_congr ?_
    cases backup with
    | none =>
      cases hbackup
      rfl
    | some b =>
      rw [insertBackup_ok hbackup]
      rfl
  split at h
  · next hnone =>
    cases h
    rw [Attempt.after_other (by simp [Job.attempt, hnone]), hsame]
  · next p hproject =>
    by_cases hq : q = p
    · subst hq
      split at h
      · next hrecorded =>
        rw [backoffState_recordOutcome h, if_pos rfl, hsame]
        by_cases hs : state = .succeeded
        · rw [Attempt.after_succeeded hproject hs, if_pos (by simpa using hs)]
        · rw [Attempt.after_failed hproject hs (hrecorded.resolve_left hs),
            if_neg (by simpa using hs)]
          rfl
      · next hno =>
        cases h
        obtain ⟨hs, hmanual⟩ := not_or.mp hno
        rw [Attempt.after_manual hs (Bool.eq_false_iff.mpr hmanual), hsame]
    · have hother : (j.attempt state now interval).projectID ≠ some q := by
        intro heq
        exact hq (Option.some.inj (hproject.symm.trans heq)).symm
      rw [Attempt.after_other hother]
      split at h
      · rw [backoffState_recordOutcome h, if_neg hq, hsame]
      · cases h
        exact hsame

/-- Interrupting a job counts if it is a backup. -/
theorem backoffState_interruptJob {j : Job} (h : interruptJob now interval db j = .ok db') :
    db'.backoffState q = if j.kind = .backup then
      (j.attempt .interrupted now interval).after q (db.backoffState q) else db.backoffState q := by
  unfold interruptJob at h
  dsimp only at h
  split at h
  · next p hkind hscheduled hproject =>
    rw [backoffState_recordOutcome h, if_pos hkind]
    by_cases hq : q = p
    · subst hq
      rw [if_pos rfl, Attempt.after_failed hproject (by simp [Job.attempt]) hscheduled]
      rfl
    · have hother : (j.attempt .interrupted now interval).projectID ≠ some q := by
        intro heq
        exact hq (Option.some.inj (hproject.symm.trans heq)).symm
      rw [if_neg hq, Attempt.after_other hother]
      rfl
  · next hother =>
    cases h
    by_cases hkind : j.kind = .backup
    · rw [if_pos hkind]
      by_cases hproject : j.projectID = some q
      · -- a manual backup
        have hmanual : j.scheduled = false :=
          Bool.eq_false_iff.mpr (fun hs => hother q hkind hs hproject)
        rw [Attempt.after_manual (by simp [Job.attempt]) hmanual]
        rfl
      · rw [Attempt.after_other hproject]
        rfl
    · rw [if_neg hkind]
      rfl

theorem backoffState_foldlM_interruptJob {js : List Job}
    (h : js.foldlM (interruptJob now interval) db = .ok db') :
    db'.backoffState q = ((js.filter (·.kind = .backup)).reverse.map
      (·.attempt .interrupted now interval)).foldr (Attempt.after q) (db.backoffState q) := by
  induction js generalizing db with
  | nil =>
    cases h
    rfl
  | cons j rest ih =>
    obtain ⟨db₁, hj, h⟩ := foldlM_cons_ok h
    rw [ih h, backoffState_interruptJob hj]
    by_cases hkind : j.kind = .backup
    · rw [if_pos hkind, List.filter_cons_of_pos (by simpa using hkind), List.reverse_cons,
        List.map_append, List.foldr_append]
      rfl
    · rw [if_neg hkind, List.filter_cons_of_neg (by simpa using hkind)]

/-- Every statement does to the state what the attempts it ends say. -/
theorem backoffState_step {ended : List Attempt}
    (h : ScheduleStep db ended db') :
    db'.backoffState q = ended.foldr (Attempt.after q) (db.backoffState q) := by
  cases h with
  | enqueue id kind projectID input scheduled now h => exact backoffState_enqueue h
  | complete j state stage error backup now interval running ended h =>
    exact backoffState_completeBackupJob h
  | restart now interval h => exact backoffState_foldlM_interruptJob h
  | other hq h => exact backoffState_congr ((StoreCall.run_frame h).schedules.resolve_left hq)

end Database

/-! ### Whole runs -/

/-- Deleting a project clears its state and leaves the others'. -/
theorem Database.backoffState_completeProjectDeletion {db db' : Database} {jobID q : String}
    {p : Project} {now : Instant} (h : db.completeProjectDeletion jobID p now = .ok db') :
    db'.backoffState q = if q = p.id then (0, 0) else db.backoffState q := by
  obtain ⟨-, event, -, -, rfl⟩ := Database.completeProjectDeletion_ok h
  have hrows : ((db.removeProjectRows p.id).finishJob jobID .succeeded "done" "" now).schedules =
      Table.delete BackupSchedule.projectID p.id db.schedules := rfl
  unfold backoffState backupSchedule
  dsimp only
  rw [hrows]
  by_cases hq : q = p.id
  · rw [if_pos hq, hq]
    have hnone : Table.find BackupSchedule.projectID p.id
        (Table.delete BackupSchedule.projectID p.id db.schedules) = none :=
      Table.find_eq_none.mpr (fun r hr => (Table.mem_delete.mp hr).2)
    rw [hnone]
    rfl
  · rw [if_neg hq, Table.find_delete_of_ne hq]

/-- The attempts of a project are none once they are taken out. -/
theorem stateOf_without {p q : String} {history : List Attempt} :
    stateOf q (history.filter (·.projectID ≠ some p)) = if q = p then (0, 0)
      else stateOf q history := by
  have hfilter : (history.filter (·.projectID ≠ some p)).filter (·.projectID = some q) =
      if q = p then [] else history.filter (·.projectID = some q) := by
    rw [List.filter_filter]
    by_cases hq : q = p
    · rw [if_pos hq, List.filter_eq_nil_iff]
      intro a _
      simp [hq]
    · rw [if_neg hq]
      refine List.filter_congr (fun a _ => ?_)
      by_cases ha : a.projectID = some q
      · simp [ha, hq]
      · simp [ha]
  unfold stateOf failuresSince
  rw [hfilter]
  by_cases hq : q = p
  · rw [if_pos hq, if_pos hq]
    rfl
  · rw [if_neg hq, if_neg hq]

theorem ScheduleRun.backoffState {db : Database} {history : List Attempt} {q : String}
    (run : ScheduleRun db history) : db.backoffState q = stateOf q history := by
  induction run with
  | start schedules =>
    unfold Database.backoffState Database.backupSchedule
    rw [schedules]
    rfl
  | step run step ih => rw [Database.backoffState_step step, ih, stateOf_append]
  | delete jobID p now run h ih =>
    rw [Database.backoffState_completeProjectDeletion h, stateOf_without, ih]

/-- A step that ends only attempts that are manual and did not succeed, or are of
    other projects, leaves the state of a project alone. -/
theorem foldr_after_eq {q : String} {ended : List Attempt} {state : ℕ × ℤ}
    (h : ∀ a ∈ ended, a.projectID = some q → a.scheduled = false ∧ a.outcome ≠ .succeeded) :
    ended.foldr (Attempt.after q) state = state := by
  induction ended with
  | nil => rfl
  | cons a ended ih =>
    rw [List.foldr_cons, ih (fun b hb => h b (List.mem_cons_of_mem a hb))]
    by_cases hq : a.projectID = some q
    · obtain ⟨hmanual, hs⟩ := h a List.mem_cons_self hq
      exact Attempt.after_manual hs hmanual
    · exact Attempt.after_other hq

/-- Only the end of one backup is a success. -/
theorem ScheduleStep.eq_of_succeeded {db db' : Database} {ended : List Attempt} {a : Attempt}
    (h : ScheduleStep db ended db') (ha : a ∈ ended) (hs : a.outcome = .succeeded) :
    ended = [a] := by
  cases h with
  | enqueue => cases ha
  | complete j state stage error backup now interval running ended h =>
    rw [List.mem_singleton.mp ha]
  | restart now interval h =>
    obtain ⟨j, -, rfl⟩ := List.mem_map.mp ha
    cases hs
  | other => cases ha

/-- In every run, a project's failures are the scheduled attempts that failed or
    were interrupted since its last success, and its next attempt is set by the
    last of them. So a manual attempt that does not succeed, like an attempt of
    another project, changes nothing, and a success clears both. -/
theorem schedule_follows_history {db : Database} {history : List Attempt}
    (run : ScheduleRun db history) (q : String) :
    (db.backupSchedule q).failures = (failuresSince q history).length ∧
    (failuresSince q history = [] → (db.backupSchedule q).nextAttemptAt = 0) ∧
    (∀ last earlier, failuresSince q history = last :: earlier →
      (db.backupSchedule q).nextAttemptAt =
        unix (last.time + backoff (failuresSince q history).length last.interval)) ∧
    ∀ ended db', ScheduleStep db ended db' →
      ((∀ a ∈ ended, a.projectID = some q → a.scheduled = false ∧ a.outcome ≠ .succeeded) →
        db'.backoffState q = db.backoffState q) ∧
      (∀ a ∈ ended, a.projectID = some q → a.outcome = .succeeded →
        db'.backoffState q = (0, 0)) := by
  have hstate : ((db.backupSchedule q).failures, (db.backupSchedule q).nextAttemptAt) =
      stateOf q history := run.backoffState
  refine ⟨?_, ?_, ?_, fun ended db' step => ⟨fun hnone => ?_, fun a ha hq hs => ?_⟩⟩
  · rw [show (db.backupSchedule q).failures = (stateOf q history).1 from congrArg Prod.fst hstate]
    unfold stateOf
    cases failuresSince q history <;> rfl
  · intro hnil
    rw [show (db.backupSchedule q).nextAttemptAt = (stateOf q history).2 from
      congrArg Prod.snd hstate, stateOf, hnil]
  · intro last earlier hlast
    rw [show (db.backupSchedule q).nextAttemptAt = (stateOf q history).2 from
      congrArg Prod.snd hstate, stateOf, hlast]
    rfl
  · rw [Database.backoffState_step step, foldr_after_eq hnone]
  · rw [Database.backoffState_step step, step.eq_of_succeeded ha hs]
    exact Attempt.after_succeeded hq hs

/-- One ready project. -/
def oneShop : Database where
  projects := [{ id := "shop", name := "Shop", dbName := "shop".toList, roleName := "shop".toList
                 idempotencyKey := "shop", stage := .ready, createdAt := 1 }]

/-- A backup of it that runs. -/
def shopRunning (scheduled : Bool) : Database :=
  match oneShop.enqueue "job" .backup (some "shop") (.backup scheduled) scheduled (ofUnix 1000) with
  | .ok db => (db.claimJob (ofUnix 1001)).2
  | .error _ => oneShop

/-- It was running when the process died. -/
def shopInterrupted (scheduled : Bool) : Database :=
  match (shopRunning scheduled).interruptRunningJobs (ofUnix 2000) (24 * hour) with
  | .ok db => db
  | .error _ => oneShop

theorem shopInterrupted_run (scheduled : Bool) : ScheduleRun (shopInterrupted scheduled)
    [⟨some "shop", scheduled, .interrupted, ofUnix 2000, 24 * hour⟩] := by
  have hqueued : ∃ db, oneShop.enqueue "job" .backup (some "shop") (.backup scheduled) scheduled
      (ofUnix 1000) = .ok db ∧ shopRunning scheduled = (db.claimJob (ofUnix 1001)).2 :=
    ⟨_, rfl, rfl⟩
  obtain ⟨db, hqueue, hclaim⟩ := hqueued
  have hrunning : ScheduleRun (shopRunning scheduled) [] := by
    rw [hclaim]
    have hstart : ScheduleRun oneShop [] := .start rfl
    exact (hstart.step (.enqueue _ _ _ _ _ _ hqueue)).step
      (.other (q := .claimJob (ofUnix 1001)) not_false rfl)
  cases scheduled with
  | true | false => exact hrunning.step (.restart (ofUnix 2000) (24 * hour) rfl)

/-- An interrupted scheduled backup backs off for 15 minutes, a manual one does
    not count. -/
theorem schedule_follows_history_shop :
    ((shopInterrupted true).backupSchedule "shop").failures = 1 ∧
    ((shopInterrupted true).backupSchedule "shop").nextAttemptAt = 2900 ∧
    ((shopInterrupted false).backupSchedule "shop").failures = 0 := by
  obtain ⟨hfailures, -, hnext, -⟩ :=
    schedule_follows_history (shopInterrupted_run true) "shop"
  obtain ⟨hmanual, -, -, -⟩ := schedule_follows_history (shopInterrupted_run false) "shop"
  refine ⟨hfailures, ?_, hmanual⟩
  rw [hnext _ [] rfl]
  decide +kernel

end Pgfy
