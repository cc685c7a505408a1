import Pgfy.Store.Projects

/-! # Statements that delete a project

    A deletion request marks the project and queues a delete job in one
    transaction. The last statement of a delete job removes the project's rows
    and finishes the job together. Queued jobs of other kinds are cancelled
    when the project is marked.
-/

namespace Pgfy

open Calendar

/-- The input of a project's delete job. -/
def Project.deleteInput (p : Project) : DeleteInput := ⟨p.id, p.name, p.dbName, p.roleName⟩

namespace Database

/-- A delete job of the project that is queued or running. -/
def activeDelete (projectID : String) (db : Database) : List Job :=
  db.jobs.filter (fun j => j.projectID = some projectID ∧ j.kind = .delete ∧ j.active)

/-- The delete job of a project. -/
def deleteJob (id : String) (p : Project) (now : Instant) : Job :=
  { id := id, kind := .delete, projectID := some p.id, input := .delete p.deleteInput,
    createdAt := unix now }

/-- Adds the delete job of a project. -/
def insertDeleteJob (id : String) (p : Project) (now : Instant) (db : Database) :
    Except Err Database :=
  db.insertJob (deleteJob id p now)

/-- Sets the tombstone, cancels the project's queued jobs and clears its backup alerts. -/
def markDeleting (p : Project) (entry : AuditEntry) (now : Instant) (db : Database) : Database :=
  { db with
    projects := Table.modify Project.id p.id (fun q => { q with
      stage := .deleting, failed := false, stageError := "", deletingAt := unix now }) db.projects
    jobs := db.jobs.map (fun j =>
      if j.projectID = some p.id ∧ j.state = .queued ∧ j.kind ≠ .delete
      then { j with
        state := .failed, error := "Cancelled: the database is being deleted.",
        finishedAt := unix now }
      else j)
    audit := db.audit ++ [entry]
    backupConditions := db.backupConditions.filter (· ≠ p.id) }

/-- What a deletion request finds: a delete job already waiting or running, or
    the database with a new one and whether the tombstone is new. -/
inductive DeletionStart where
  | active (job : Job)
  | queued (created : Bool) (db : Database)

/-- Marks the project for deletion and queues its delete job; for a project
    already marked, queues one only if none is waiting or running. -/
def beginProjectDeletion (projectID id : String) (entry : AuditEntry) (now : Instant)
    (db : Database) : Except Err DeletionStart :=
  if db.maintenance then .error .maintenance
  else
    match Table.find Project.id projectID db.projects with
    | none => .error .projectNotFound
    | some p =>
      if p.stage = .deleting then
        match ((db.activeDelete projectID).insertionSort
          (fun a b => a.createdAt ≤ b.createdAt)).head? with
        | some j => .ok (.active j)
        | none =>
          match ({ db with
            audit := db.audit ++ [{ entry with
              action := "project.delete.retry" }] }).insertDeleteJob id p now with
          | .ok db => .ok (.queued false db)
          | .error e => .error e
      else if p.stage ≠ .ready ∧ !p.failed then .error .notDeletable
      else if db.jobs.any (fun j => j.projectID = some projectID ∧ j.state = .running) then
        .error .projectBusy
      else
        match (db.markDeleting p entry now).insertDeleteJob id p now with
        | .ok db => .ok (.queued true db)
        | .error e => .error e

variable {db db' : Database}

/-- What a request that queues a delete job has found and done: it retries the
    deletion of a marked project that has no active delete job, or marks a
    project that may be deleted and has no running job. -/
theorem beginProjectDeletion_queued {projectID id : String} {entry : AuditEntry} {now : Instant}
    {created : Bool}
    (h : db.beginProjectDeletion projectID id entry now = .ok (.queued created db')) :
    db.maintenance = false ∧ (∀ o ∈ db.jobs, o.id ≠ id) ∧
      ∃ p, Table.find Project.id projectID db.projects = some p ∧
        ((created = false ∧ p.stage = .deleting ∧ db.activeDelete projectID = [] ∧
          ∃ audit, db' = { db with
            audit := audit
            jobs := db.jobs ++ [deleteJob id p now] }) ∨
         (created = true ∧ p.stage ≠ .deleting ∧ (p.stage = .ready ∨ p.failed = true) ∧
          (∀ o ∈ db.jobs, o.projectID = some projectID → o.state ≠ .running) ∧
          db' = { db.markDeleting p entry now with
            jobs := (db.markDeleting p entry now).jobs ++ [deleteJob id p now] })) := by
  unfold beginProjectDeletion at h
  split at h
  · cases h
  next hm =>
  split at h
  · cases h
  next p hfind =>
  split at h
  · next hstage =>
    split at h
    · cases h
    next hnone =>
    split at h
    · next db₁ hinsert =>
      cases h
      obtain ⟨hid, -, rfl⟩ := insertJob_ok hinsert
      have hempty : db.activeDelete projectID = [] := by
        rw [List.head?_eq_none_iff] at hnone
        have hlen := (List.perm_insertionSort (fun a b : Job => a.createdAt ≤ b.createdAt)
          (db.activeDelete projectID)).length_eq
        rw [hnone] at hlen
        exact List.length_eq_zero_iff.mp hlen.symm
      exact ⟨by simpa using hm, hid, p, hfind, Or.inl ⟨rfl, hstage, hempty, _, rfl⟩⟩
    · cases h
  · next hstage =>
    split at h
    · cases h
    next hready =>
    split at h
    · cases h
    next hrunning =>
    split at h
    · next db₁ hinsert =>
      cases h
      obtain ⟨hid, -, rfl⟩ := insertJob_ok hinsert
      have hid' : ∀ o ∈ db.jobs, o.id ≠ id := by
        intro o ho
        have := hid _ (List.mem_map.mpr ⟨o, ho, rfl⟩)
        split at this <;> exact this
      refine ⟨by simpa using hm, hid', p, hfind, Or.inr ⟨rfl, hstage, ?_, ?_, rfl⟩⟩
      · by_cases hr : p.stage = .ready
        · exact Or.inl hr
        · exact Or.inr (by simpa [hr] using hready)
      · simpa using hrunning
    · cases h

/-- Projects marked for deletion that have no job waiting or running. -/
def pendingDeletions (db : Database) : List Project :=
  (db.projects.filter (fun p => p.stage = .deleting ∧ db.activeDelete p.id = [])).insertionSort
    (fun a b => a.deletingAt < b.deletingAt ∨ (a.deletingAt = b.deletingAt ∧ a.id ≤ b.id))

/-- Queues a delete job for each of them, `ids` naming the jobs. -/
def resumeDeletions (ids : List String) (now : Instant) (db : Database) :
    Except Err (ℕ × Database) :=
  if db.maintenance then .ok (0, db)
  else
    match (db.pendingDeletions.zip ids).foldlM (fun db p => db.insertDeleteJob p.2 p.1 now) db with
    | .ok db' => .ok (db.pendingDeletions.length, db')
    | .error e => .error e

theorem mem_pendingDeletions {p : Project} : p ∈ db.pendingDeletions ↔
    p ∈ db.projects ∧ p.stage = .deleting ∧ db.activeDelete p.id = [] := by
  rw [pendingDeletions, (List.perm_insertionSort _ _).mem_iff, List.mem_filter]
  simp

/-- Queueing delete jobs one by one adds their rows, under new ids. -/
theorem foldlM_insertDeleteJob_ok {now : Instant} {pairs : List (Project × String)}
    (h : pairs.foldlM (fun db p => db.insertDeleteJob p.2 p.1 now) db = .ok db') :
    (∀ x ∈ pairs, ∀ o ∈ db.jobs, o.id ≠ x.2) ∧ (pairs.map Prod.snd).Nodup ∧
      db' = { db with jobs := db.jobs ++ pairs.map (fun x => deleteJob x.2 x.1 now) } := by
  induction pairs generalizing db with
  | nil =>
    cases h
    exact ⟨by simp, by simp, by simp⟩
  | cons x rest ih =>
    rw [List.foldlM_cons] at h
    cases hx : db.insertDeleteJob x.2 x.1 now with
    | error e =>
      rw [hx] at h
      cases h
    | ok db₁ =>
      rw [hx] at h
      obtain ⟨hid, -, rfl⟩ := insertJob_ok hx
      obtain ⟨hids, hnodup, rfl⟩ := ih h
      refine ⟨?_, ?_, by simp⟩
      · intro y hy o ho
        rcases List.mem_cons.mp hy with rfl | hy
        · exact hid o ho
        · exact hids y hy o (List.mem_append_left _ ho)
      · rw [List.map_cons, List.nodup_cons]
        refine ⟨?_, hnodup⟩
        intro hx'
        obtain ⟨y, hy, hyx⟩ := List.mem_map.mp hx'
        exact hids y hy (deleteJob x.2 x.1 now) (by simp) hyx.symm

theorem resumeDeletions_ok {ids : List String} {now : Instant} {n : ℕ}
    (h : db.resumeDeletions ids now = .ok (n, db')) :
    db' = db ∨ (db.maintenance = false ∧
      (∀ x ∈ db.pendingDeletions.zip ids, ∀ o ∈ db.jobs, o.id ≠ x.2) ∧
      ((db.pendingDeletions.zip ids).map Prod.snd).Nodup ∧
      db' = { db with
        jobs := db.jobs ++ (db.pendingDeletions.zip ids).map (fun x =>
          deleteJob x.2 x.1 now) }) := by
  unfold resumeDeletions at h
  split at h
  · cases h
    exact Or.inl rfl
  next hm =>
  split at h
  · next db₁ hfold =>
    cases h
    exact Or.inr ⟨by simpa using hm, foldlM_insertDeleteJob_ok hfold⟩
  · cases h

/-- Removes a project's rows, clearing its id where history keeps the row. -/
def removeProjectRows (id : String) (db : Database) : Database :=
  { db with
    secrets := db.secrets.filter (·.projectID ≠ id)
    policyRevisions := db.policyRevisions.filter (·.projectID ≠ id)
    policyStates := db.policyStates.filter (·.projectID ≠ id)
    connectionChecks := db.connectionChecks.filter (·.projectID ≠ id)
    limits := db.limits.filter (·.projectID ≠ id)
    schedules := db.schedules.filter (·.projectID ≠ id)
    jobs := db.jobs.map (fun j => if j.projectID = some id then { j with projectID := none } else j)
    backups := db.backups.map (fun b =>
      if b.projectID = some id then { b with projectID := none } else b)
    projects := db.projects.filter (·.id ≠ id) }

/-- Removes the project's rows once its database and role are gone, finishes
    the job and records the notice. -/
def completeProjectDeletion (jobID : String) (p : Project) (now : Instant) (db : Database) :
    Except Err Database :=
  match Table.find Project.id p.id db.projects with
  | none => .error (.message "the project is no longer marked for deletion")
  | some q =>
    if q.stage ≠ .deleting then
      .error (.message "the project is no longer marked for deletion")
    else
      .ok (((db.removeProjectRows p.id).finishJob jobID .succeeded "done" "" now).recordAlertEvent
        .projectDeleted p.id "A database was deleted"
        ("Project " ++ p.name ++ " (" ++ String.ofList p.dbName ++
          ") and its PostgreSQL user were removed. " ++
          "Its backups stay in the bucket under the retention policy.") now)

theorem completeProjectDeletion_ok {jobID : String} {p : Project} {now : Instant}
    (h : db.completeProjectDeletion jobID p now = .ok db') :
    (∃ q, Table.find Project.id p.id db.projects = some q ∧ q.stage = .deleting) ∧
      ∃ event, event.kind = .projectDeleted ∧ event.subject = p.id ∧
        db' = { (db.removeProjectRows p.id).finishJob jobID .succeeded "done" "" now with
          alertEvents := db.alertEvents ++ [event] } := by
  unfold completeProjectDeletion at h
  split at h
  · cases h
  next q hfind =>
  split at h
  · cases h
  next hstage =>
  cases h
  exact ⟨⟨q, hfind, by simpa using hstage⟩, _, rfl, rfl, rfl⟩

/-- Records a failed attempt; only the first failure of a deletion is told. -/
def failDeleteJob (jobID projectID projectName stage message : String) (now : Instant)
    (db : Database) : Database :=
  let earlier := db.jobs.any (fun j => j.projectID = some projectID ∧ j.kind = .delete ∧
    j.state = .failed ∧ j.id ≠ jobID)
  let db := db.finishJob jobID .failed stage message now
  if !earlier && projectID ≠ "" then
    db.recordAlertEvent .deleteFailed projectID ("Deleting " ++ projectName ++ " did not finish")
      ("It stopped at stage " ++ stage ++ ": " ++ message ++
        " It is retried automatically every 15 minutes; see the database page.") now
  else db

end Database

end Pgfy
