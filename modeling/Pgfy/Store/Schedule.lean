import Pgfy.Store.Projects

/-! # Statements on the backup schedule

    A project's schedule row says when a backup of it was last attempted and,
    after failures, when the next may start. Attempts are recorded with their
    job, outcomes with the end of it. A project without a row was never
    attempted, which counts as an attempt at `0`.
-/

namespace Pgfy

open Calendar Storage

namespace Database

/-- When a backup of the project was last attempted or ended. -/
def lastAttempt (projectID : String) (db : Database) : ℤ :=
  ((Table.find BackupSchedule.projectID projectID db.schedules).map (·.lastAttemptAt)).getD 0

/-- Before when the scheduler leaves the project alone. -/
def nextAttempt (projectID : String) (db : Database) : ℤ :=
  ((Table.find BackupSchedule.projectID projectID db.schedules).map (·.nextAttemptAt)).getD 0

/-- The schedule row of a project, or a blank one. -/
def backupSchedule (projectID : String) (db : Database) : BackupSchedule :=
  (Table.find BackupSchedule.projectID projectID db.schedules).getD { projectID := projectID }

/-- The time of the newest complete backup in a store that names this
    installation, the project and its database. -/
def newestBackup (target : Text) (installationID : String) (p : Project) (db : Database) : ℤ :=
  (((db.bucketBackups.filter (fun r => r.1 = target ∧ r.2.state = .complete ∧
    r.2.installationID = installationID ∧ r.2.projectID = p.id ∧
    r.2.dbName = p.dbName)).map (·.2.takenAt)).max?).getD 0

/-- The same for the project of an id, if there is such a backup. -/
def newestRecoverable (target : Text) (installationID projectID : String) (db : Database) :
    Option ℤ :=
  ((db.bucketBackups.filter (fun r => r.1 = target ∧ r.2.state = .complete ∧
    r.2.installationID = installationID ∧ r.2.projectID = projectID ∧
    db.projects.any (fun p => p.id = projectID ∧ p.dbName = r.2.dbName))).map (·.2.takenAt)).max?

/-- Ids of projects are unique, so the two ways of asking agree. -/
theorem newestBackup_eq {target : Text} {installationID : String} {p : Project} {db : Database}
    (hids : (db.projects.map Project.id).Nodup) (hp : p ∈ db.projects) :
    db.newestBackup target installationID p =
      (db.newestRecoverable target installationID p.id).getD 0 := by
  have hname : ∀ r : Text × BucketBackup,
      db.projects.any (fun q => q.id = p.id ∧ q.dbName = r.2.dbName) =
        decide (r.2.dbName = p.dbName) := by
    intro r
    refine Bool.eq_iff_iff.mpr ?_
    rw [List.any_eq_true, decide_eq_true_iff]
    constructor
    · intro ⟨q, hq, hsame⟩
      obtain ⟨hid, hdb⟩ := of_decide_eq_true hsame
      obtain rfl := List.inj_on_of_nodup_map hids hq hp hid
      exact hdb.symm
    · intro hdb
      exact ⟨p, hp, decide_eq_true ⟨rfl, hdb.symm⟩⟩
  unfold newestBackup newestRecoverable
  simp only [hname, decide_eq_true_eq]

/-- The ready projects whose newest backup is older than one and a half times the
    interval, or that have none though they have been ready that long. -/
def lateProjects (target : Text) (installationID : String) (interval : ℤ) (now : Instant)
    (db : Database) : List Project :=
  let deadline := unix (now + Int.tdiv (-3 * interval) 2)
  db.allProjects.filter (fun p => p.stage = .ready && !p.failed &&
    match db.newestRecoverable target installationID p.id with
    | none => decide (p.readyAt < deadline)
    | some at_ => decide (at_ < deadline))

/-- `ORDER BY COALESCE(last_attempt_at,0), created_at, id`. -/
def LessRecent (db : Database) (p q : Project) : Prop :=
  db.lastAttempt p.id < db.lastAttempt q.id ∨
    (db.lastAttempt p.id = db.lastAttempt q.id ∧
      (p.createdAt < q.createdAt ∨ (p.createdAt = q.createdAt ∧ p.id ≤ q.id)))

instance (db : Database) (p q : Project) : Decidable (db.LessRecent p q) := by
  unfold LessRecent
  infer_instance

/-- The ready projects with a backup due and their backoff over, least recently
    attempted first. -/
def backupCandidates (target : Text) (installationID : String) (now dueBefore : Instant)
    (db : Database) : List Project :=
  (db.projects.filter (fun p => p.stage = .ready ∧ p.failed = false ∧
    db.nextAttempt p.id ≤ unix now ∧
    db.newestBackup target installationID p ≤ unix dueBefore)).insertionSort db.LessRecent

theorem lastAttempt_le_of_lessRecent {db : Database} {p q : Project} (h : db.LessRecent p q) :
    db.lastAttempt p.id ≤ db.lastAttempt q.id := by
  rcases h with h | h
  · exact h.le
  · exact h.1.le

instance (db : Database) : Std.Total db.LessRecent where
  total p q := by
    unfold LessRecent
    rcases lt_trichotomy (db.lastAttempt p.id) (db.lastAttempt q.id) with h | h | h
    · exact Or.inl (Or.inl h)
    · rcases lt_trichotomy p.createdAt q.createdAt with hc | hc | hc
      · exact Or.inl (Or.inr ⟨h, Or.inl hc⟩)
      · rcases String.le_total p.id q.id with hi | hi
        · exact Or.inl (Or.inr ⟨h, Or.inr ⟨hc, hi⟩⟩)
        · exact Or.inr (Or.inr ⟨h.symm, Or.inr ⟨hc.symm, hi⟩⟩)
      · exact Or.inr (Or.inr ⟨h.symm, Or.inl hc⟩)
    · exact Or.inr (Or.inl h)

instance (db : Database) : IsTrans Project db.LessRecent where
  trans p q r hpq hqr := by
    unfold LessRecent at hpq hqr ⊢
    rcases hpq with hpq | ⟨hpq, hpq'⟩
    · rcases hqr with hqr | ⟨hqr, -⟩
      · exact Or.inl (hpq.trans hqr)
      · exact Or.inl (hqr ▸ hpq)
    · rcases hqr with hqr | ⟨hqr, hqr'⟩
      · exact Or.inl (hpq ▸ hqr)
      · refine Or.inr ⟨hpq.trans hqr, ?_⟩
        rcases hpq' with hpq' | ⟨hc, hi⟩
        · rcases hqr' with hqr' | ⟨hc', -⟩
          · exact Or.inl (hpq'.trans hqr')
          · exact Or.inl (hc' ▸ hpq')
        · rcases hqr' with hqr' | ⟨hc', hi'⟩
          · exact Or.inl (hc ▸ hqr')
          · exact Or.inr ⟨hc.trans hc', String.le_trans hi hi'⟩

/-- The candidates come least recently attempted first. -/
theorem backupCandidates_sorted {target : Text} {installationID : String}
    {now dueBefore : Instant} {db : Database} :
    (db.backupCandidates target installationID now dueBefore).Pairwise
      (fun p q => db.lastAttempt p.id ≤ db.lastAttempt q.id) :=
  (List.pairwise_insertionSort db.LessRecent _).imp lastAttempt_le_of_lessRecent

/-! ### What changes a last attempt -/

variable {db db' : Database} {p q : String} {now : Instant}

theorem lastAttempt_congr (h : db'.schedules = db.schedules) :
    db'.lastAttempt q = db.lastAttempt q := by
  unfold lastAttempt
  rw [h]

/-- A schedule row put in place sets its project's last attempt and no other. -/
theorem lastAttempt_upsert {f : Option BackupSchedule → BackupSchedule} {t : ℤ}
    (hkey : (f (Table.find BackupSchedule.projectID p db.schedules)).projectID = p)
    (htime : (f (Table.find BackupSchedule.projectID p db.schedules)).lastAttemptAt = t) :
    lastAttempt q { db with schedules := Table.upsert BackupSchedule.projectID p f db.schedules } =
      if q = p then t else db.lastAttempt q := by
  unfold lastAttempt
  by_cases hq : q = p
  · subst hq
    rw [if_pos rfl]
    simp only
    rw [Table.find_upsert_self hkey, Option.map_some, Option.getD_some, htime]
  · rw [if_neg hq]
    simp only
    rw [Table.find_upsert_of_ne hkey hq]

theorem lastAttempt_recordAttempt :
    (db.recordAttempt p now).lastAttempt q = if q = p then unix now else db.lastAttempt q := by
  refine lastAttempt_upsert ?_ rfl
  cases hfind : Table.find BackupSchedule.projectID p db.schedules with
  | none => rfl
  | some old => exact (Table.find_eq_some hfind).2

theorem lastAttempt_recordOutcome {succeeded : Bool} {interval : ℤ}
    (h : db.recordOutcome p succeeded now interval = .ok db') :
    db'.lastAttempt q = if q = p then unix now else db.lastAttempt q := by
  unfold recordOutcome at h
  split at h
  · cases h
  · cases h
    exact lastAttempt_upsert rfl rfl

/-- A backup's attempt is recorded with its job. -/
theorem lastAttempt_enqueue {id : String} {input : JobInput} {scheduled : Bool}
    (h : db.enqueue id .backup (some p) input scheduled now = .ok db') :
    db'.lastAttempt q = if q = p then unix now else db.lastAttempt q := by
  unfold enqueue at h
  split at h
  · cases h
  split at h
  · cases h
  split at h
  · cases h
  next db₁ hinsert =>
  obtain ⟨-, -, rfl⟩ := insertJob_ok hinsert
  cases h
  exact lastAttempt_recordAttempt

/-- The end of a backup moves no last attempt but its project's, and that to now. -/
theorem lastAttempt_completeBackupJob {id : String} {projectID : Option String}
    {state : JobState} {stage error : String} {backup : Option Backup} {scheduled : Bool}
    {interval : ℤ}
    (h : db.completeBackupJob id projectID state stage error backup scheduled now interval =
      .ok db') :
    db'.lastAttempt q = db.lastAttempt q ∨
      (projectID = some q ∧ db'.lastAttempt q = unix now) := by
  unfold completeBackupJob at h
  dsimp only at h
  split at h
  · cases h
  next db₁ hbackup =>
  have hsame : db₁.lastAttempt q = db.lastAttempt q := by
    refine lastAttempt_congr ?_
    cases backup with
    | none =>
      cases hbackup
      rfl
    | some b =>
      rw [insertBackup_ok hbackup]
      rfl
  split at h
  · cases h
    exact Or.inl hsame
  · next p =>
    split at h
    · have hlast := lastAttempt_recordOutcome (q := q) h
      by_cases hq : q = p
      · rw [if_pos hq] at hlast
        exact Or.inr ⟨congrArg some hq.symm, hlast⟩
      · rw [if_neg hq, hsame] at hlast
        exact Or.inl hlast
    · cases h
      exact Or.inl hsame

/-- Interrupting jobs moves no last attempt but those of projects whose backup is
    among them, and those to now. -/
theorem lastAttempt_foldlM_interruptJob {interval : ℤ} {js : List Job}
    (h : js.foldlM (interruptJob now interval) db = .ok db') :
    db'.lastAttempt q = db.lastAttempt q ∨
      (db'.lastAttempt q = unix now ∧ ∃ j ∈ js, j.kind = .backup ∧ j.projectID = some q) := by
  induction js generalizing db with
  | nil =>
    cases h
    exact Or.inl rfl
  | cons j rest ih =>
    obtain ⟨db₁, hj, h⟩ := foldlM_cons_ok h
    have hone : db₁.lastAttempt q = db.lastAttempt q ∨
        (db₁.lastAttempt q = unix now ∧ j.kind = .backup ∧ j.projectID = some q) := by
      unfold interruptJob at hj
      dsimp only at hj
      split at hj
      · next p hkind _ hproject =>
        have hlast := lastAttempt_recordOutcome (q := q) hj
        by_cases hq : q = p
        · rw [if_pos hq] at hlast
          exact Or.inr ⟨hlast, hkind, hproject.trans (congrArg some hq.symm)⟩
        · rw [if_neg hq] at hlast
          exact Or.inl hlast
      · cases hj
        exact Or.inl rfl
    rcases ih h with hrest | ⟨hrest, k, hk, hk'⟩
    · rcases hone with hone | ⟨hone, hkind, hproject⟩
      · exact Or.inl (hrest.trans hone)
      · exact Or.inr ⟨hrest.trans hone, j, List.mem_cons_self, hkind, hproject⟩
    · exact Or.inr ⟨hrest, k, List.mem_cons_of_mem _ hk, hk'⟩

end Database

end Pgfy
