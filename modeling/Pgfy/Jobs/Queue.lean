import Pgfy.Calls

/-! # The job queue

    Requests add jobs; the one worker claims the oldest, runs it, ends it and
    claims the next; a start of the application interrupts what was running.
    Anything else may happen to the database in between. The writes that end a
    job address it by its id alone and look at nothing, so that they are harmless
    rests on the order in which the worker makes them.

    A write that ends a job, or interrupts it at a start, is taken to commit: if
    it does not, the worker goes on and the row stays running.
-/

namespace Pgfy

open Calendar

/-! ### Steps -/

/-- The database, and the job the worker is at. -/
structure Queue where
  db : Database
  current : Option String := none

/-- Statements anybody makes. `EnqueueJob` is for backups and restores; a
    deletion is queued by statements of its own. -/
def StoreCall.Shared {β : Type} : StoreCall β → Prop
  | claimJob .. => False
  | finishJob .. => False
  | completeBackupJob .. => False
  | interruptRunningJobs .. => False
  | completeProjectDeletion .. => False
  | failDeleteJob .. => False
  | enqueue _ kind _ _ _ _ => kind ≠ .delete
  | _ => True

/-- The write by which `execute` ends a job. -/
inductive Database.Ends (db : Database) (id : String) : Database → Prop
  | finish (state stage error now) (h : state = .succeeded ∨ state = .failed) :
      db.Ends id (db.finishJob id state stage error now)
  | backup {projectID state stage error backup scheduled now interval db'}
      (h : state = .succeeded ∨ state = .failed)
      (hrun : db.completeBackupJob id projectID state stage error backup scheduled now interval =
        .ok db') : db.Ends id db'
  | removed {p now db' j d}
      (hj : j ∈ db.jobs) (hid : j.id = id) (hkind : j.kind = .delete)
      (hinput : j.input = .delete d) (hp : d.projectID = p.id)
      (hrun : db.completeProjectDeletion id p now = .ok db') : db.Ends id db'
  | failed (projectID name stage message now) :
      db.Ends id (db.failDeleteJob id projectID name stage message now)

/-- One statement, with what the worker is at before and after it. -/
inductive Queue.Step : Queue → Queue → Prop
  | shared {β : Type} {q : StoreCall β} {a : β} {db db' : Database} {c : Option String}
      (hq : q.Shared) (h : q.run db = .ok (a, db')) : Step ⟨db, c⟩ ⟨db', c⟩
  | claim {db : Database} (now : Instant) :
      Step ⟨db, none⟩ ⟨(db.claimJob now).2, (db.claimJob now).1.map Job.id⟩
  | ends {db db' : Database} {id : String} (h : db.Ends id db') : Step ⟨db, some id⟩ ⟨db', none⟩
  | start {db db' : Database} {c : Option String} {now : Instant} {interval : ℤ}
      (h : db.interruptRunningJobs now interval = .ok db') : Step ⟨db, c⟩ ⟨db', none⟩

/-! ### What a step does to a row -/

/-- The row and the input of a delete job name its project. -/
def Job.Deletes (j : Job) (id : String) : Prop :=
  j.projectID = some id ∧ ∃ d, j.input = .delete d ∧ d.projectID = id

/-- Two jobs that must not wait or run together. -/
def Job.Clash (j o : Job) : Prop :=
  (j.kind ≠ .delete ∧ o.kind ≠ .delete) ∨
    (j.kind = .delete ∧ o.kind = .delete ∧ j.projectID = o.projectID)

theorem Job.Clash.symm {j o : Job} (h : j.Clash o) : o.Clash j :=
  h.imp And.symm (fun h => ⟨h.2.1, h.1, h.2.2.symm⟩)

/-- What may become of a row: it is never queued or run again, what has ended
    stays as it ended, and a delete job keeps its project until it has. -/
structure Job.Onward (j j' : Job) : Prop where
  id : j'.id = j.id
  kind : j'.kind = j.kind
  active : j'.active = true → j.active = true ∧ j'.finishedAt = j.finishedAt ∧
    (j.kind = .delete → j'.projectID = j.projectID ∧ j'.input = j.input)
  ended : j.active = false → j'.state = j.state ∧ j'.error = j.error ∧
    j'.finishedAt = j.finishedAt

theorem Job.Onward.refl (j : Job) : j.Onward j :=
  ⟨rfl, rfl, fun h => ⟨h, rfl, fun _ => ⟨rfl, rfl⟩⟩, fun _ => ⟨rfl, rfl, rfl⟩⟩

/-- The row has ended. -/
theorem Job.Onward.of_ends {j j' : Job} (hid : j'.id = j.id) (hkind : j'.kind = j.kind)
    (hj : j.active = true) (hj' : j'.active = false) : j.Onward j' :=
  ⟨hid, hkind, fun h => absurd (hj'.symm.trans h) Bool.false_ne_true,
    fun h => absurd (h.symm.trans hj) Bool.false_ne_true⟩

/-- What holds at any time. -/
structure Queue.Orderly (q : Queue) : Prop where
  ids : (q.db.jobs.map Job.id).Nodup
  projects : (q.db.projects.map Project.id).Nodup
  unfinished : ∀ j ∈ q.db.jobs, j.active = true → j.finishedAt = 0
  running : ∀ j ∈ q.db.jobs, j.state = .running → q.current = some j.id
  current : ∀ id, q.current = some id → ∃ j ∈ q.db.jobs, j.id = id ∧ j.state = .running
  alone : ∀ j ∈ q.db.jobs, ∀ o ∈ q.db.jobs, j.active = true → o.active = true →
    j.Clash o → j.id = o.id
  marked : ∀ j ∈ q.db.jobs, j.active = true → j.kind = .delete →
    ∃ p ∈ q.db.projects, j.Deletes p.id ∧ p.stage = .deleting

/-- What a step does. While an update holds the installation quiet it adds no
    row, starts no job and loses no queued one. -/
structure Queue.Does (q q' : Queue) : Prop where
  orderly : q'.Orderly
  rows : ∀ j' ∈ q'.db.jobs, (∃ j ∈ q.db.jobs, j.Onward j') ∨
    q.db.maintenance = false ∧ ∀ j ∈ q.db.jobs, j.id ≠ j'.id
  starts : q.db.maintenance = true → ∀ j' ∈ q'.db.jobs, j'.state = .running →
    ∃ j ∈ q.db.jobs, j.id = j'.id ∧ j.state = .running
  waits : q.db.maintenance = true → ∀ j ∈ q.db.jobs, j.state = .queued →
    ∃ j' ∈ q'.db.jobs, j'.id = j.id ∧ j'.state = .queued

namespace Queue

variable {q : Queue} {db db' : Database} {c c' : Option String} {p : Project} {now : Instant}

/-- A step that adds no row: some that have ended go, the others are changed by `g`. -/
theorem Does.of_map (h : q.Orderly) (f : Job → Bool) (g : Job → Job)
    (hjobs : db'.jobs = (q.db.jobs.filter f).map g)
    (hf : ∀ j ∈ q.db.jobs, j.active = true → f j = true)
    (hg : ∀ j ∈ q.db.jobs, j.Onward (g j))
    (hids : (db'.projects.map Project.id).Nodup)
    (hmarked : ∀ j ∈ q.db.jobs, (g j).active = true → ∀ p ∈ q.db.projects,
      j.projectID = some p.id → p.stage = .deleting → j.kind = .delete →
        ∃ p' ∈ db'.projects, p'.id = p.id ∧ p'.stage = .deleting)
    (hrunning : ∀ j ∈ q.db.jobs, (g j).state = .running → c' = some j.id)
    (hcurrent : ∀ id, c' = some id → ∃ j ∈ q.db.jobs, j.id = id ∧ (g j).state = .running)
    (hheld : q.db.maintenance = true → ∀ j ∈ q.db.jobs,
      ((g j).state = .running → j.state = .running) ∧
      (j.state = .queued → (g j).state = .queued)) : q.Does ⟨db', c'⟩ := by
  have hrows : ∀ j' ∈ db'.jobs, ∃ j ∈ q.db.jobs, g j = j' := by
    intro j' hj'
    rw [hjobs] at hj'
    obtain ⟨j, hj, heq⟩ := List.mem_map.mp hj'
    exact ⟨j, List.mem_of_mem_filter hj, heq⟩
  have hmem : ∀ j ∈ q.db.jobs, j.active = true → g j ∈ db'.jobs := by
    intro j hj ha
    rw [hjobs]
    exact List.mem_map_of_mem (List.mem_filter.mpr ⟨hj, hf j hj ha⟩)
  refine ⟨⟨?_, hids, ?_, ?_, fun id hid => ?_, ?_, ?_⟩, ?_, fun hm => ?_, fun hm j hj hq => ?_⟩
  · have hsame : db'.jobs.map Job.id = (q.db.jobs.filter f).map Job.id := by
      rw [hjobs, List.map_map]
      exact List.map_congr_left (fun j hj => (hg j (List.mem_of_mem_filter hj)).id)
    rw [hsame]
    exact h.ids.sublist (List.filter_sublist.map _)
  · rintro _ hj' ha
    obtain ⟨j, hj, rfl⟩ := hrows _ hj'
    obtain ⟨ha, hfinished, -⟩ := (hg j hj).active ha
    exact hfinished.trans (h.unfinished j hj ha)
  · rintro _ hj' hr
    obtain ⟨j, hj, rfl⟩ := hrows _ hj'
    rw [(hg j hj).id]
    exact hrunning j hj hr
  · obtain ⟨j, hj, heq, hr⟩ := hcurrent id hid
    have ha := ((hg j hj).active (Job.active_of_running hr)).1
    exact ⟨g j, hmem j hj ha, (hg j hj).id.trans heq, hr⟩
  · rintro _ hj' _ ho' ha ha' hclash
    obtain ⟨j, hj, rfl⟩ := hrows _ hj'
    obtain ⟨o, ho, rfl⟩ := hrows _ ho'
    obtain ⟨ha, -, hpid⟩ := (hg j hj).active ha
    obtain ⟨ha', -, hpid'⟩ := (hg o ho).active ha'
    rw [Job.Clash, (hg j hj).kind, (hg o ho).kind] at hclash
    rw [(hg j hj).id, (hg o ho).id]
    refine h.alone j hj o ho ha ha' (hclash.imp_right (fun hk => ⟨hk.1, hk.2.1, ?_⟩))
    rw [← (hpid hk.1).1, ← (hpid' hk.2.1).1]
    exact hk.2.2
  · rintro _ hj' ha hk
    obtain ⟨j, hj, rfl⟩ := hrows _ hj'
    rw [(hg j hj).kind] at hk
    obtain ⟨haj, -, hpid⟩ := (hg j hj).active ha
    obtain ⟨p, hp, hid, hstage⟩ := h.marked j hj haj hk
    obtain ⟨p', hp', hid', hstage'⟩ := hmarked j hj ha p hp hid.1 hstage hk
    exact ⟨p', hp', by rw [Job.Deletes, (hpid hk).1, (hpid hk).2, hid']; exact hid, hstage'⟩
  · rintro _ hj'
    obtain ⟨j, hj, rfl⟩ := hrows _ hj'
    exact Or.inl ⟨j, hj, hg j hj⟩
  · rintro _ hj' hr
    obtain ⟨j, hj, rfl⟩ := hrows _ hj'
    exact ⟨j, hj, (hg j hj).id.symm, (hheld hm j hj).1 hr⟩
  · exact ⟨g j, hmem j hj (Job.active_of_queued hq), (hg j hj).id, (hheld hm j hj).2 hq⟩

/-- Then queued rows are added that clash with nothing. -/
theorem Does.add (h : q.Does ⟨db, c⟩) (hm : q.db.maintenance = false) {new : List Job}
    (hsame : db.jobs.map Job.id = q.db.jobs.map Job.id)
    (hjobs : db'.jobs = db.jobs ++ new) (hprojects : db'.projects = db.projects)
    (hids : (new.map Job.id).Nodup) (hfresh : ∀ j ∈ new, ∀ o ∈ q.db.jobs, o.id ≠ j.id)
    (hnew : ∀ j ∈ new, j.state = .queued ∧ j.finishedAt = 0)
    (hold : ∀ j ∈ new, ∀ o ∈ db.jobs, o.active = true → ¬ o.Clash j)
    (halone : ∀ j ∈ new, ∀ o ∈ new, j.Clash o → j.id = o.id)
    (hmarked : ∀ j ∈ new, j.kind = .delete →
      ∃ p ∈ db.projects, j.Deletes p.id ∧ p.stage = .deleting) : q.Does ⟨db', c⟩ := by
  have hmem : ∀ {j}, j ∈ db'.jobs ↔ j ∈ db.jobs ∨ j ∈ new := by
    intro j
    rw [hjobs, List.mem_append]
  obtain ⟨ho, hrows, -, -⟩ := h
  refine ⟨⟨?_, by rw [hprojects]; exact ho.projects, fun j hj ha => ?_, fun j hj hr => ?_,
    fun id hid => ?_, fun j hj o ho' ha ha' hclash => ?_, fun j hj ha hk => ?_⟩,
    fun j hj => ?_, fun hm' => ?_, fun hm' => ?_⟩
  · rw [hjobs, List.map_append]
    refine List.nodup_append.mpr ⟨ho.ids, hids, fun a ha b hb hab => ?_⟩
    rw [hsame] at ha
    obtain ⟨o, ho', rfl⟩ := List.mem_map.mp ha
    obtain ⟨n, hn, rfl⟩ := List.mem_map.mp hb
    exact hfresh n hn o ho' hab
  · rcases hmem.mp hj with hj | hj
    · exact ho.unfinished j hj ha
    · exact (hnew j hj).2
  · rcases hmem.mp hj with hj | hj
    · exact ho.running j hj hr
    · cases (hnew j hj).1.symm.trans hr
  · obtain ⟨j, hj, hrest⟩ := ho.current id hid
    exact ⟨j, hmem.mpr (Or.inl hj), hrest⟩
  · rcases hmem.mp hj with hj | hj <;> rcases hmem.mp ho' with ho' | ho'
    · exact ho.alone j hj o ho' ha ha' hclash
    · exact absurd hclash (hold o ho' j hj ha)
    · exact absurd hclash.symm (hold j hj o ho' ha')
    · exact halone j hj o ho' hclash
  · rw [hprojects]
    rcases hmem.mp hj with hj | hj
    · exact ho.marked j hj ha hk
    · exact hmarked j hj hk
  · rcases hmem.mp hj with hj | hj
    · exact hrows j hj
    · exact Or.inr ⟨hm, hfresh j hj⟩
  all_goals cases hm.symm.trans hm'

/-- A step that leaves the states of jobs alone and unmarks no project. -/
theorem Does.of_notes (h : q.Orderly) (g : Job → Job) (hjobs : db'.jobs = q.db.jobs.map g)
    (hg : ∀ j, j.Onward (g j) ∧ (g j).state = j.state)
    (hids : (db'.projects.map Project.id).Nodup)
    (hmarked : ∀ p ∈ q.db.projects, p.stage = .deleting →
      ∃ p' ∈ db'.projects, p'.id = p.id ∧ p'.stage = .deleting) : q.Does ⟨db', q.current⟩ := by
  refine .of_map h (fun _ => true) g (by simpa using hjobs) (fun _ _ _ => rfl)
    (fun j _ => (hg j).1) hids (fun _ _ _ p hp _ hstage _ => hmarked p hp hstage)
    (fun j hj hr => ?_) (fun id hid => ?_) (fun _ j _ => ?_)
  · rw [(hg j).2] at hr
    exact h.running j hj hr
  · obtain ⟨j, hj, heq, hr⟩ := h.current id hid
    exact ⟨j, hj, heq, (hg j).2.trans hr⟩
  · rw [(hg j).2]
    exact ⟨id, id⟩

theorem Does.of_jobs (h : q.Orderly) (hjobs : db'.jobs = q.db.jobs)
    (hids : (db'.projects.map Project.id).Nodup)
    (hmarked : ∀ p ∈ q.db.projects, p.stage = .deleting →
      ∃ p' ∈ db'.projects, p'.id = p.id ∧ p'.stage = .deleting) : q.Does ⟨db', q.current⟩ :=
  .of_notes h id (by rw [hjobs, List.map_id]) (fun j => ⟨.refl j, rfl⟩) hids hmarked

theorem Does.of_modifyProject (h : q.Orderly) {id : String} {f : Project → Project}
    (hf : ∀ p, (f p).id = p.id ∧ (p.stage = .deleting → (f p).stage = .deleting)) :
    q.Does ⟨q.db.modifyProject id f, q.current⟩ := by
  refine .of_jobs h rfl ?_ (fun p hp hstage => ?_)
  · exact (Table.map_key_modify (fun p _ hp => (hf p).1.trans hp)).symm ▸ h.projects
  · refine ⟨_, Table.mem_modify.mpr ⟨p, hp, rfl⟩, ?_⟩
    split
    · exact ⟨(hf p).1, (hf p).2 hstage⟩
    · exact ⟨rfl, hstage⟩

theorem Does.of_modifyJob (h : q.Orderly) {id : String} {f : Job → Job}
    (hf : ∀ j, j.Onward (f j) ∧ (f j).state = j.state) :
    q.Does ⟨q.db.modifyJob id f, q.current⟩ := by
  refine .of_notes h _ rfl (fun j => ?_) h.projects (fun p hp hstage => ⟨p, hp, rfl, hstage⟩)
  split
  · exact hf j
  · exact ⟨.refl j, rfl⟩

/-! ### Each step -/

theorem Does.refl (h : q.Orderly) : q.Does q :=
  .of_jobs h rfl h.projects (fun p hp hstage => ⟨p, hp, rfl, hstage⟩)

theorem Does.of_pruneJobs (h : q.Orderly) (before : Instant) :
    q.Does ⟨q.db.pruneJobs before, q.current⟩ := by
  refine .of_map h (fun j => ¬ q.db.prunable before j) id (by simp [Database.pruneJobs]) ?_
    (fun j _ => .refl j) h.projects (fun _ _ _ p hp _ hstage _ => ⟨p, hp, rfl, hstage⟩)
    h.running h.current (fun _ _ _ => ⟨id, id⟩)
  intro j hj ha
  -- what has no time of ending is not pruned
  simp [Database.prunable, h.unfinished j hj ha]

theorem Does.of_enqueue (h : q.Orderly) {id kind projectID input scheduled}
    (hkind : kind ≠ .delete)
    (hrun : q.db.enqueue id kind projectID input scheduled now = .ok db') :
    q.Does ⟨db', q.current⟩ := by
  obtain ⟨hm, hidle, hfresh, -, schedules, -, rfl⟩ := Database.enqueue_ok hrun
  refine Does.add (.refl h) hm rfl rfl rfl (List.nodup_singleton _) ?_ ?_ ?_ ?_ ?_ <;>
    intro j hj <;> obtain rfl := List.mem_singleton.mp hj
  · exact hfresh
  · exact ⟨rfl, rfl⟩
  · exact fun o ho ha => by cases (hidle o ho).symm.trans ha
  · exact fun o ho _ => by rw [List.mem_singleton.mp ho]
  · exact fun hdelete => absurd hdelete hkind

/-- A job that clashes with a delete job deletes the same project. -/
theorem clash_deleteJob {o : Job} {id : String}
    (h : o.Clash (Database.deleteJob id p now)) : o.kind = .delete ∧ o.projectID = some p.id :=
  h.elim (fun h => absurd rfl h.2) (fun h => ⟨h.1, h.2.2⟩)

theorem not_clash_of_activeDelete {id : String} (h : db.activeDelete p.id = []) {o : Job}
    (ho : o ∈ db.jobs) (ha : o.active = true) :
    ¬ o.Clash (Database.deleteJob id p now) := by
  intro hclash
  obtain ⟨hk, hp⟩ := clash_deleteJob hclash
  have hmem : o ∈ db.activeDelete p.id := List.mem_filter.mpr ⟨ho, by simp [hp, hk, ha]⟩
  rw [h] at hmem
  cases hmem

theorem deletes_deleteJob {id : String} : (Database.deleteJob id p now).Deletes p.id :=
  ⟨rfl, _, rfl, rfl⟩

/-- Marking a project cancels its queued jobs. -/
theorem Does.of_markDeleting (h : q.Orderly) (hm : q.db.maintenance = false) (p : Project)
    (entry : AuditEntry) (now : Instant) :
    q.Does ⟨q.db.markDeleting p entry now, q.current⟩ := by
  refine .of_map h (fun _ => true) (fun j =>
      if j.projectID = some p.id ∧ j.state = .queued ∧ j.kind ≠ .delete
      then { j with
        state := .failed, error := "Cancelled: the database is being deleted.",
        finishedAt := unix now }
      else j) (by simp [Database.markDeleting]) (fun _ _ _ => rfl) ?_ ?_ ?_ ?_ ?_
    (fun hm' => by cases hm.symm.trans hm')
  · intro j _
    split
    · next hj => exact .of_ends rfl rfl (Job.active_of_queued hj.2.1) rfl
    · exact .refl j
  · have hkeys : (q.db.markDeleting p entry now).projects.map Project.id =
        q.db.projects.map Project.id := Table.map_key_modify (fun _ _ hp => hp)
    rw [hkeys]
    exact h.projects
  · intro _ _ _ p' hp' _ hstage _
    refine ⟨_, Table.mem_modify.mpr ⟨p', hp', rfl⟩, ?_⟩
    split
    · exact ⟨rfl, rfl⟩
    · exact ⟨rfl, hstage⟩
  · intro j hj hr
    split at hr
    · cases hr
    · exact h.running j hj hr
  · intro id hid
    obtain ⟨j, hj, heq, hr⟩ := h.current id hid
    exact ⟨j, hj, heq, by simp [hr]⟩

theorem Does.of_beginProjectDeletion (h : q.Orderly) {projectID id entry created}
    (hrun : q.db.beginProjectDeletion projectID id entry now = .ok (.queued created db')) :
    q.Does ⟨db', q.current⟩ := by
  obtain ⟨hm, hfresh, p, hfind, hcase⟩ := Database.beginProjectDeletion_queued hrun
  obtain ⟨hp, rfl⟩ := Table.find_eq_some hfind
  rcases hcase with ⟨-, hstage, hnone, audit, rfl⟩ | ⟨-, hstage, -, -, rfl⟩
  · refine Does.add (.refl h) hm rfl rfl rfl (List.nodup_singleton _) ?_ ?_ ?_ ?_ ?_ <;>
      intro j hj <;> obtain rfl := List.mem_singleton.mp hj
    · exact hfresh
    · exact ⟨rfl, rfl⟩
    · exact fun o ho ha => not_clash_of_activeDelete hnone ho ha
    · exact fun o ho _ => by rw [List.mem_singleton.mp ho]
    · exact fun _ => ⟨p, hp, deletes_deleteJob, hstage⟩
  · have hmark := Does.of_markDeleting h hm p entry now
    refine hmark.add hm ?_ rfl rfl (List.nodup_singleton _) ?_ ?_ ?_ ?_ ?_
    · rw [Database.markDeleting, List.map_map]
      refine List.map_congr_left (fun j _ => ?_)
      simp only [Function.comp]
      split <;> rfl
    all_goals intro j hj; obtain rfl := List.mem_singleton.mp hj
    · exact hfresh
    · exact ⟨rfl, rfl⟩
    · intro o ho ha hclash
      obtain ⟨hk, heq⟩ := clash_deleteJob hclash
      obtain ⟨o, hmem, rfl⟩ := List.mem_map.mp ho
      split at ha
      · cases ha
      next hsame =>
      rw [if_neg hsame] at hk heq
      -- an active delete job of the project says that it was marked before
      obtain ⟨p', hp', hid, hstage'⟩ := h.marked o hmem ha hk
      obtain rfl := List.inj_on_of_nodup_map h.projects hp' hp
        (Option.some.inj (hid.1.symm.trans heq))
      exact hstage hstage'
    · exact fun o ho _ => by rw [List.mem_singleton.mp ho]
    · exact fun _ => ⟨_, Table.mem_modify.mpr ⟨p, hp, rfl⟩, by simp [deletes_deleteJob]⟩

theorem Does.of_resumeDeletions (h : q.Orderly) {ids n}
    (hrun : q.db.resumeDeletions ids now = .ok (n, db')) : q.Does ⟨db', q.current⟩ := by
  rcases Database.resumeDeletions_ok hrun with rfl | ⟨hm, hfresh, hids, rfl⟩
  · exact .refl h
  have hpending : (q.db.pendingDeletions.map Project.id).Nodup :=
    ((List.perm_insertionSort _ _).map _).nodup_iff.mpr (h.projects.sublist
      (List.filter_sublist.map _))
  refine Does.add (.refl h) hm rfl rfl rfl (by simpa [List.map_map, Function.comp_def,
    Database.deleteJob] using hids) ?_ ?_ ?_ ?_ ?_ <;>
    intro j hj <;> obtain ⟨x, hx, rfl⟩ := List.mem_map.mp hj <;>
    obtain ⟨hp, hstage, hnone⟩ := Database.mem_pendingDeletions.mp (List.of_mem_zip hx).1
  · exact hfresh x hx
  · exact ⟨rfl, rfl⟩
  · exact fun o ho ha => not_clash_of_activeDelete hnone ho ha
  · intro o ho hclash
    obtain ⟨y, hy, rfl⟩ := List.mem_map.mp ho
    -- one pair for each project
    obtain ⟨i, hi, rfl⟩ := List.mem_iff_getElem.mp hx
    obtain ⟨k, hk, rfl⟩ := List.mem_iff_getElem.mp hy
    rw [List.length_zip] at hi hk
    have hinj := List.nodup_iff_injective_getElem.mp hpending
    have hik := @hinj ⟨i, by rw [List.length_map]; omega⟩ ⟨k, by rw [List.length_map]; omega⟩
      (by simpa [Database.deleteJob] using (clash_deleteJob hclash).2)
    obtain rfl : i = k := Fin.mk.inj hik
    rfl
  · exact fun _ => ⟨x.1, hp, deletes_deleteJob, hstage⟩

theorem Does.of_shared {β : Type} {call : StoreCall β} {a : β} (h : Orderly ⟨db, c⟩)
    (hcall : call.Shared) (hrun : call.run db = .ok (a, db')) : Does ⟨db, c⟩ ⟨db', c⟩ := by
  have hframe : ¬ call.WritesJobs → ¬ call.WritesProjects → Does ⟨db, c⟩ ⟨db', c⟩ := by
    intro hjobs hprojects
    have hf := StoreCall.run_frame hrun
    have hsame := hf.projects.resolve_left hprojects
    exact .of_jobs h (hf.jobs.resolve_left hjobs) (hsame ▸ h.projects)
      (fun p hp hstage => ⟨p, hsame ▸ hp, rfl, hstage⟩)
  cases call
  case enqueue =>
    rw [StoreCall.run, StoreCall.tryWrite_eq_ok] at hrun
    exact .of_enqueue h hcall hrun
  case pruneJobs =>
    obtain rfl := StoreCall.write_eq_ok.mp hrun
    exact .of_pruneJobs h _
  case setJobTarget =>
    obtain rfl := StoreCall.write_eq_ok.mp hrun
    exact .of_modifyJob h (fun j => ⟨⟨rfl, rfl, fun ha => ⟨ha, rfl, fun _ => ⟨rfl, rfl⟩⟩,
      fun _ => ⟨rfl, rfl, rfl⟩⟩, rfl⟩)
  case setJobStage =>
    obtain rfl := StoreCall.write_eq_ok.mp hrun
    refine .of_modifyJob h (fun j => ?_)
    split
    · exact ⟨⟨rfl, rfl, fun ha => ⟨ha, rfl, fun _ => ⟨rfl, rfl⟩⟩, fun _ => ⟨rfl, rfl, rfl⟩⟩, rfl⟩
    · exact ⟨.refl j, rfl⟩
  case insertProject =>
    rw [StoreCall.run] at hrun
    beta_reduce at hrun
    split at hrun
    · next hinsert =>
      cases hrun
      obtain ⟨hnew, rfl⟩ := Database.insertProject_some hinsert
      refine .of_jobs h rfl ?_ (fun p hp hstage => ⟨p, List.mem_append_left _ hp, rfl, hstage⟩)
      rw [List.map_append]
      refine List.nodup_append.mpr ⟨h.projects, List.nodup_singleton _, ?_⟩
      intro x hx y hy
      obtain ⟨o, ho, rfl⟩ := List.mem_map.mp hx
      rw [List.mem_singleton.mp hy]
      exact (hnew o ho).1
    · cases hrun
      exact .refl h
  case setProjectStage =>
    obtain rfl := StoreCall.write_eq_ok.mp hrun
    refine .of_modifyProject h (fun p => ?_)
    split
    · exact ⟨rfl, fun hp => hp⟩
    · split <;> simp_all
  case failProject =>
    obtain rfl := StoreCall.write_eq_ok.mp hrun
    exact .of_modifyProject h (fun p => by split <;> simp_all)
  case retryProject =>
    obtain rfl := Database.retryProject_ok (StoreCall.tryWrite_eq_ok.mp hrun)
    exact .of_modifyProject h (fun p => by split <;> simp_all)
  case setProjectFrozen =>
    obtain rfl := Database.setProjectFrozen_ok (StoreCall.tryWrite_eq_ok.mp hrun)
    exact .of_modifyProject h (fun p => ⟨rfl, fun hp => hp⟩)
  case beginProjectDeletion =>
    rw [StoreCall.run] at hrun
    beta_reduce at hrun
    split at hrun
    · cases hrun
    · cases hrun
      exact .refl h
    · next hbegin =>
      cases hrun
      exact .of_beginProjectDeletion h hbegin
  case resumeDeletions => exact .of_resumeDeletions h hrun
  all_goals first
    | exact hcall.elim
    | exact hframe id id

theorem Does.of_claimJob (h : Orderly ⟨db, none⟩) (now : Instant) :
    Does ⟨db, none⟩ ⟨(db.claimJob now).2, (db.claimJob now).1.map Job.id⟩ := by
  unfold Database.claimJob
  split
  · exact .refl h
  next job hjob =>
  split
  · exact .refl h
  next hm =>
  have hmem := (List.perm_insertionSort _ _).mem_iff.mp (List.mem_of_head? hjob)
  obtain ⟨hmem, hqueued⟩ := List.mem_filter.mp hmem
  have hqueued : job.state = .queued := by simpa using hqueued
  have hrun : ∀ j ∈ db.jobs, j.state ≠ .running := fun j hj hr => by cases h.running j hj hr
  refine .of_map h (fun _ => true) (fun j => if j.id = job.id then { j with
      state := .running, stage := "starting", startedAt := unix now,
      stageAt := unix now } else j)
    (by simp [Database.modifyJob, Table.modify]) (fun _ _ _ => rfl) (fun j hj => ?_) h.projects
    (fun _ _ _ p hp _ hstage _ => ⟨p, hp, rfl, hstage⟩) (fun j hj hr => ?_) (fun id hid => ?_)
    (fun hm' => absurd hm' hm)
  · split
    · next heq =>
      -- ids are distinct, so this is the queued row
      obtain rfl := List.inj_on_of_nodup_map h.ids hj hmem heq
      exact ⟨rfl, rfl, fun _ => ⟨Job.active_of_queued hqueued, rfl, fun _ => ⟨rfl, rfl⟩⟩,
        fun ha => by cases ha.symm.trans (Job.active_of_queued hqueued)⟩
    · exact .refl j
  · split at hr
    · next heq => exact congrArg some heq.symm
    · exact absurd hr (hrun j hj)
  · exact ⟨job, hmem, Option.some.inj hid, by simp⟩

/-- The running row ends, and no other is running. -/
theorem Does.of_ended {id : String} (h : Orderly ⟨db, some id⟩) (g : Job → Job)
    (hjobs : db'.jobs = db.jobs.map g)
    (hended : ∀ j, j.id = id → (g j).id = j.id ∧ (g j).kind = j.kind ∧ (g j).active = false)
    (hother : ∀ j ∈ db.jobs, j.id ≠ id → j.Onward (g j) ∧ (g j).state = j.state)
    (hids : (db'.projects.map Project.id).Nodup)
    (hmarked : ∀ j ∈ db.jobs, (g j).active = true → ∀ p ∈ db.projects,
      j.projectID = some p.id → p.stage = .deleting → j.kind = .delete →
        ∃ p' ∈ db'.projects, p'.id = p.id ∧ p'.stage = .deleting) :
    Does ⟨db, some id⟩ ⟨db', none⟩ := by
  obtain ⟨job, hjob, hid, hr⟩ := h.current id rfl
  have hne : ∀ j ∈ db.jobs, j.state ≠ .running → j.id ≠ id := by
    intro j hj hstate heq
    obtain rfl := List.inj_on_of_nodup_map h.ids hj hjob (heq.trans hid.symm)
    exact hstate hr
  have hrunning : ∀ j ∈ db.jobs, (g j).state ≠ .running := by
    intro j hj hr
    by_cases heq : j.id = id
    · cases (hended j heq).2.2.symm.trans (Job.active_of_running hr)
    · rw [(hother j hj heq).2] at hr
      exact heq (Option.some.inj (h.running j hj hr)).symm
  refine .of_map h (fun _ => true) g (by simpa using hjobs) (fun _ _ _ => rfl) (fun j hj => ?_) hids
    hmarked (fun j hj hr => absurd hr (hrunning j hj)) (fun _ hid => by cases hid)
    (fun _ j hj => ⟨fun hr => absurd hr (hrunning j hj), fun hq => ?_⟩)
  · by_cases heq : j.id = id
    · obtain rfl := List.inj_on_of_nodup_map h.ids hj hjob (heq.trans hid.symm)
      obtain ⟨hid, hkind, hactive⟩ := hended j heq
      exact .of_ends hid hkind (Job.active_of_running hr) hactive
    · exact (hother j hj heq).1
  · rw [(hother j hj (hne j hj (by simp [hq]))).2]
    exact hq

theorem Does.of_finished {id : String} (h : Orderly ⟨db, some id⟩) {state stage error}
    (hstate : state = JobState.succeeded ∨ state = .failed)
    (hjobs : db'.jobs = (db.finishJob id state stage error now).jobs)
    (hprojects : db'.projects = db.projects) : Does ⟨db, some id⟩ ⟨db', none⟩ := by
  refine .of_ended h _ hjobs (fun j heq => ?_) (fun j _ hne => ?_) (hprojects ▸ h.projects)
    (fun _ _ _ p hp _ hstage _ => ⟨p, hprojects ▸ hp, rfl, hstage⟩)
  · rw [if_pos heq]
    exact ⟨rfl, rfl, by rcases hstate with rfl | rfl <;> rfl⟩
  · rw [if_neg hne]
    exact ⟨.refl j, rfl⟩

theorem Does.of_ends {id : String} (h : Orderly ⟨db, some id⟩) (hends : db.Ends id db') :
    Does ⟨db, some id⟩ ⟨db', none⟩ := by
  cases hends with
  | finish state stage error now hstate => exact .of_finished h hstate rfl rfl
  | backup hstate hrun =>
    obtain ⟨_, _, -, rfl⟩ := Database.completeBackupJob_ok hrun
    exact .of_finished h hstate rfl rfl
  | failed projectID name stage message now =>
    unfold Database.failDeleteJob
    dsimp only
    split <;> exact .of_finished h (Or.inr rfl) rfl rfl
  | @removed p now _ job d hjob hid hkind hinput hp hrun =>
    obtain ⟨-, event, -, -, rfl⟩ := Database.completeProjectDeletion_ok hrun
    -- the job being run is the one delete job of the project
    have hrunning : job.active = true := by
      obtain ⟨o, ho, hoid, hr⟩ := h.current id rfl
      rw [List.inj_on_of_nodup_map h.ids hjob ho (hid.trans hoid.symm)]
      exact Job.active_of_running hr
    obtain ⟨p', -, ⟨hpid, d', hinput', hd⟩, -⟩ := h.marked job hjob hrunning hkind
    obtain rfl : d = d' := JobInput.delete.inj (hinput.symm.trans hinput')
    rw [← hd, hp] at hpid
    have honly : ∀ j ∈ db.jobs, j.active = true → j.kind = .delete → j.id ≠ id →
        j.projectID ≠ some p.id := fun j hj ha hk hne heq =>
      hne ((h.alone j hj job hjob ha hrunning (Or.inr ⟨hk, hkind, heq.trans hpid.symm⟩)).trans hid)
    refine .of_ended h (fun j =>
      let j := if j.projectID = some p.id then { j with projectID := none } else j
      if j.id = id then { j with
        state := .succeeded, stage := "done", error := "", finishedAt := unix now } else j)
      ?_ (fun j heq => ?_) (fun j hj hne => ?_) (h.projects.sublist (List.filter_sublist.map _))
      (fun j hj ha p' hp' hproj hstage hk => ?_)
    · simp [Database.finishJob, Database.modifyJob, Database.removeProjectRows, Table.modify]
    · by_cases hproj : j.projectID = some p.id <;> simp [hproj, heq, Job.active]
    · by_cases hproj : j.projectID = some p.id
      · simp only [hproj, if_true, hne, if_false]
        refine ⟨⟨rfl, rfl, fun ha => ⟨ha, rfl, fun hk => ?_⟩, fun _ => ⟨rfl, rfl, rfl⟩⟩, trivial⟩
        exact absurd hproj (honly j hj ha hk hne)
      · simp only [hproj, if_false, hne]
        exact ⟨.refl j, trivial⟩
    · refine ⟨p', List.mem_filter.mpr ⟨hp', decide_eq_true (fun heq => ?_)⟩, rfl, hstage⟩
      rw [heq] at hproj
      by_cases hjid : j.id = id
      · simp [hproj, hjid, Job.active] at ha
      · simp only [hproj, if_true, hjid, if_false] at ha
        exact honly j hj ha hk hjid hproj

/-- Only the job being run is running, so only that one is interrupted. -/
theorem Does.of_interruptRunningJobs (h : Orderly ⟨db, c⟩) {interval}
    (hrun : db.interruptRunningJobs now interval = .ok db') : Does ⟨db, c⟩ ⟨db', none⟩ := by
  obtain ⟨events, schedules, -, -, rfl⟩ := Database.interruptRunningJobs_ok hrun
  have hids : ∀ id, id ∈ (db.jobs.filter (·.state = .running)).map Job.id ↔ c = some id := by
    intro id
    constructor
    · intro hmem
      obtain ⟨j, hj, rfl⟩ := List.mem_map.mp hmem
      obtain ⟨hj, hr⟩ := List.mem_filter.mp hj
      exact h.running j hj (by simpa using hr)
    · intro hid
      obtain ⟨j, hj, rfl, hr⟩ := h.current id hid
      exact List.mem_map_of_mem (List.mem_filter.mpr ⟨hj, by simp [hr]⟩)
  simp only [hids]
  cases c with
  | none => exact .of_jobs h (by simp) h.projects (fun p hp hstage => ⟨p, hp, rfl, hstage⟩)
  | some id =>
    refine .of_ended h _ rfl (fun j heq => ?_) (fun j _ hne => ?_) h.projects
      (fun _ _ _ p hp _ hstage _ => ⟨p, hp, rfl, hstage⟩)
    · rw [if_pos (congrArg some heq.symm)]
      exact ⟨rfl, rfl, rfl⟩
    · rw [if_neg (fun heq => hne (Option.some.inj heq).symm)]
      exact ⟨.refl j, rfl⟩

theorem Step.does {q q' : Queue} (hstep : q.Step q') (h : q.Orderly) : q.Does q' := by
  cases hstep with
  | shared hq hrun => exact .of_shared h hq hrun
  | claim now => exact .of_claimJob h now
  | ends hends => exact .of_ends h hends
  | start hrun => exact .of_interruptRunningJobs h hrun

/-! ### Whole runs -/

/-- The states an installation that has never had a job comes to. -/
def Reachable (q : Queue) : Prop :=
  ∃ db : Database, db.jobs = [] ∧ (db.projects.map Project.id).Nodup ∧
    Relation.ReflTransGen Step ⟨db, none⟩ q

theorem Reachable.orderly {q : Queue} (h : q.Reachable) : q.Orderly := by
  obtain ⟨db, hjobs, hids, hrun⟩ := h
  induction hrun with
  | refl =>
    refine ⟨?_, hids, ?_, ?_, fun _ hid => (by cases hid), ?_, ?_⟩ <;> simp [hjobs]
  | tail _ hstep ih => exact (hstep.does ih).orderly

/-- As long as its row is there, an ended job keeps its outcome. -/
theorem Does.ended {q' : Queue} (h : q.Does q') (ho : q.Orderly) {j j' : Job}
    (hj : j ∈ q.db.jobs) (hended : j.active = false) (hj' : j' ∈ q'.db.jobs)
    (hid : j'.id = j.id) :
    j'.state = j.state ∧ j'.error = j.error ∧ j'.finishedAt = j.finishedAt := by
  rcases h.rows j' hj' with ⟨o, ho', hon⟩ | ⟨-, hne⟩
  · obtain rfl := List.inj_on_of_nodup_map ho.ids ho' hj (hon.id.symm.trans hid)
    exact hon.ended hended
  · exact absurd hid.symm (hne j hj)

/-- In every state at most one job is running, at most one backup or restore is
    queued or running, and a project has at most one delete job that is, for
    which it stays marked. -/
theorem queue_exclusive {q : Queue} (h : q.Reachable) {j o : Job} (hj : j ∈ q.db.jobs)
    (ho : o ∈ q.db.jobs) :
    (j.state = .running → o.state = .running → j = o) ∧
    (j.active = true → o.active = true → j.Clash o → j = o) ∧
    (j.active = true → j.kind = .delete →
      ∃ p ∈ q.db.projects, j.Deletes p.id ∧ p.stage = .deleting) := by
  have hq := h.orderly
  have hrow : j.id = o.id → j = o := List.inj_on_of_nodup_map hq.ids hj ho
  refine ⟨fun hr hr' => hrow ?_, fun ha ha' hclash => hrow ?_, hq.marked j hj⟩
  · exact Option.some.inj ((hq.running j hj hr).symm.trans (hq.running o ho hr'))
  · exact hq.alone j hj o ho ha ha' hclash

/-- A project for which deletion is asked. -/
def removable : Project :=
  { id := "p", name := "p", dbName := [], roleName := [], idempotencyKey := "k", stage := .ready,
    createdAt := 0 }

/-- The job that backs up another project. -/
def backingUp : Job :=
  { id := "b", kind := .backup, projectID := some "o", state := .running, stage := "starting",
    input := .backup false, createdAt := 0 }

/-- While it runs, the delete job waits. -/
def waiting : Database :=
  let db : Database := { projects := [removable, { removable with id := "o" }] }
  let db := (db.recordAttempt "o" 0).markDeleting removable ⟨0, 1, "project.delete", "p", "r", ""⟩ 0
  { db with jobs := [backingUp, Database.deleteJob "j" removable 0] }

theorem reachable_waiting : Reachable ⟨waiting, some "b"⟩ := by
  refine ⟨{ projects := [removable, { removable with id := "o" }] }, rfl, by decide, ?_⟩
  refine ((Relation.ReflTransGen.single (.shared
    (q := .enqueue "b" .backup (some "o") (.backup false) false 0) ?_ rfl)).tail (.claim 0)).tail
    (.shared (q := .beginProjectDeletion "p" "j" ⟨0, 1, "project.delete", "p", "r", ""⟩ 0)
      trivial rfl)
  exact JobKind.noConfusion

theorem queue_exclusive_waiting :
    (∀ j ∈ waiting.jobs, j.state = .running → j = backingUp) ∧
    (∀ j ∈ waiting.jobs, j.active = true → j.kind ≠ .delete → j = backingUp) ∧
    ∃ p ∈ waiting.projects, (Database.deleteJob "j" removable 0).Deletes p.id ∧
      p.stage = .deleting := by
  have hbackup : backingUp ∈ waiting.jobs := List.mem_cons_self
  have hdelete : Database.deleteJob "j" removable 0 ∈ waiting.jobs :=
    List.mem_cons_of_mem _ List.mem_cons_self
  refine ⟨fun j hj hr => ?_, fun j hj ha hk => ?_, ?_⟩
  · exact (queue_exclusive reachable_waiting hj hbackup).1 hr rfl
  · exact (queue_exclusive reachable_waiting hj hbackup).2.1 ha rfl (Or.inl ⟨hk, by decide⟩)
  · exact (queue_exclusive reachable_waiting hdelete hbackup).2.2 rfl rfl

/-- A job that has ended keeps its outcome. -/
theorem ended_kept {q q' : Queue} (h : q.Reachable) (hstep : q.Step q') {j j' : Job}
    (hj : j ∈ q.db.jobs) (hended : j.active = false) (hj' : j' ∈ q'.db.jobs)
    (hid : j'.id = j.id) :
    j'.state = j.state ∧ j'.error = j.error ∧ j'.finishedAt = j.finishedAt :=
  (hstep.does h.orderly).ended h.orderly hj hended hj' hid

/-- The backup has failed, and the delete job runs. -/
def failed : Database := ((waiting.finishJob "b" .failed "uploading" "timeout" 1).claimJob 2).2

theorem reachable_failed : Reachable ⟨failed, some "j"⟩ := by
  obtain ⟨db, hjobs, hids, hrun⟩ := reachable_waiting
  exact ⟨db, hjobs, hids, (hrun.tail (.ends (.finish _ _ _ _ (Or.inr rfl)))).tail (.claim 2)⟩

/-- The process starts again: only the delete job is interrupted. -/
theorem ended_kept_failed :
    ∃ db', failed.interruptRunningJobs 3 0 = .ok db' ∧
      (∃ j ∈ db'.jobs, j.id = "j" ∧ j.state = .interrupted) ∧
      ∀ j ∈ db'.jobs, j.id = "b" → j.state = .failed ∧ j.error = "timeout" := by
  obtain ⟨db', hrun, hother⟩ : ∃ db', failed.interruptRunningJobs 3 0 = .ok db' ∧
      ∃ j ∈ db'.jobs, j.id = "j" ∧ j.state = .interrupted := ⟨_, rfl, by decide⟩
  refine ⟨db', hrun, hother, fun j hj hid => ?_⟩
  obtain ⟨hstate, herror, -⟩ := ended_kept reachable_failed (.start hrun)
    (j := { backingUp with state := .failed, stage := "uploading", error := "timeout" })
    List.mem_cons_self rfl hj hid
  exact ⟨hstate, herror⟩

/-- Over every run that leaves its row in place, an ended job keeps its state. -/
theorem Orderly.ended_over {q' : Queue} (hq : q.Orderly) {j : Job} (hj : j ∈ q.db.jobs)
    (hended : j.active = false)
    (hrun : Relation.ReflTransGen (fun a b => a.Step b ∧ ∃ o ∈ b.db.jobs, o.id = j.id) q q') :
    q'.Orderly ∧ ∃ o ∈ q'.db.jobs, o.id = j.id ∧ o.state = j.state := by
  induction hrun with
  | refl => exact ⟨hq, j, hj, rfl, rfl⟩
  | tail _ hstep ih =>
    obtain ⟨ho, o, hmem, hid, hstate⟩ := ih
    obtain ⟨hstep, j', hj', hid'⟩ := hstep
    have hdoes := hstep.does ho
    have hover : o.active = false := by rwa [Job.active, hstate]
    have hkept := hdoes.ended ho hmem hover hj' (hid'.trans hid.symm)
    exact ⟨hdoes.orderly, j', hj', hid', hkept.1.trans hstate⟩

/-- In every state at most one job is running, at most one backup or restore is queued or
    running, and at most one delete job of each project is, which is then marked for deletion. A job
    that has ended keeps its state over every run that leaves its row in place. -/
theorem jobs_in_order {q : Queue} (h : q.Reachable) :
    q.db.jobs.countP (·.state = .running) ≤ 1 ∧
    q.db.jobs.countP (fun j => j.active && j.kind ≠ .delete) ≤ 1 ∧
    (∀ id, q.db.jobs.countP
      (fun j => j.active && j.kind = .delete && j.projectID = some id) ≤ 1) ∧
    (∀ j ∈ q.db.jobs, j.active = true → j.kind = .delete →
      ∃ p ∈ q.db.projects, j.projectID = some p.id ∧ p.stage = .deleting) ∧
    ∀ j ∈ q.db.jobs, j.active = false → ∀ q', Relation.ReflTransGen
        (fun a b => a.Step b ∧ ∃ o ∈ b.db.jobs, o.id = j.id) q q' →
      ∀ j' ∈ q'.db.jobs, j'.id = j.id → j'.state = j.state := by
  have hq := h.orderly
  refine ⟨Table.countP_le_one hq.ids ?_, Table.countP_le_one hq.ids ?_,
    fun id => Table.countP_le_one hq.ids ?_, fun j hj ha hk => ?_, fun j hj hended q' hrun => ?_⟩
  · intro j hj o ho hr hr'
    simp only [decide_eq_true_eq] at hr hr'
    exact Option.some.inj ((hq.running j hj hr).symm.trans (hq.running o ho hr'))
  · intro j hj o ho ha ha'
    simp only [Bool.and_eq_true, decide_eq_true_eq] at ha ha'
    exact hq.alone j hj o ho ha.1 ha'.1 (Or.inl ⟨ha.2, ha'.2⟩)
  · intro j hj o ho ha ha'
    simp only [Bool.and_eq_true, decide_eq_true_eq] at ha ha'
    exact hq.alone j hj o ho ha.1.1 ha'.1.1 (Or.inr ⟨ha.1.2, ha'.1.2, ha.2.trans ha'.2.symm⟩)
  · obtain ⟨p, hp, hdeletes, hstage⟩ := hq.marked j hj ha hk
    exact ⟨p, hp, hdeletes.1, hstage⟩
  · obtain ⟨ho, o, hmem, hid, hstate⟩ := hq.ended_over hj hended hrun
    intro j' hj' hid'
    rw [List.inj_on_of_nodup_map ho.ids hj' hmem (hid'.trans hid.symm), hstate]

theorem jobs_in_order_failed :
    failed.jobs.countP (·.state = .running) ≤ 1 ∧
    (∃ p ∈ failed.projects, p.id = "p" ∧ p.stage = .deleting) ∧
    ∀ q' : Queue, Relation.ReflTransGen (fun a b => a.Step b ∧ ∃ o ∈ b.db.jobs, o.id = "b")
        ⟨failed, some "j"⟩ q' →
      ∀ j ∈ q'.db.jobs, j.id = "b" → j.state = .failed := by
  obtain ⟨hrunning, -, -, hmarked, hkept⟩ := jobs_in_order reachable_failed
  refine ⟨hrunning, ?_, hkept { backingUp with
    state := .failed, stage := "uploading", error := "timeout" } List.mem_cons_self rfl⟩
  obtain ⟨p, hp, hid, hstage⟩ := hmarked _ (List.mem_cons_of_mem _ List.mem_cons_self) rfl rfl
  exact ⟨p, hp, (Option.some.inj hid).symm, hstage⟩

/-- As long as an update holds the installation quiet, no job is added or
    started, and none that waits is lost. -/
theorem held_frozen {q q' : Queue} (h : q.Reachable) (hm : q.db.maintenance = true)
    (hrun : Relation.ReflTransGen (fun a b => a.Step b ∧ b.db.maintenance = true) q q') :
    (∀ j' ∈ q'.db.jobs, ∃ j ∈ q.db.jobs, j.id = j'.id) ∧
    (∀ j' ∈ q'.db.jobs, j'.state = .running → ∃ j ∈ q.db.jobs, j.id = j'.id ∧ j.state = .running) ∧
    ∀ j ∈ q.db.jobs, j.state = .queued → ∃ j' ∈ q'.db.jobs, j'.id = j.id ∧ j'.state = .queued := by
  suffices hall : q'.Orderly ∧ q'.db.maintenance = true ∧ _ from hall.2.2
  induction hrun with
  | refl =>
    exact ⟨h.orderly, hm, fun j hj => ⟨j, hj, rfl⟩, fun j hj hr => ⟨j, hj, rfl, hr⟩,
      fun j hj hq => ⟨j, hj, rfl, hq⟩⟩
  | tail _ hstep ih =>
    obtain ⟨ho, hm, hids, hruns, hwaits⟩ := ih
    have hdoes := hstep.1.does ho
    refine ⟨hdoes.orderly, hstep.2, fun j' hj' => ?_, fun j' hj' hr => ?_, fun j hj hq => ?_⟩
    · rcases hdoes.rows j' hj' with ⟨o, ho, hon⟩ | ⟨hoff, -⟩
      · obtain ⟨j, hj, heq⟩ := hids o ho
        exact ⟨j, hj, heq.trans hon.id.symm⟩
      · cases hoff.symm.trans hm
    · obtain ⟨o, ho, heq, hr⟩ := hdoes.starts hm j' hj' hr
      obtain ⟨j, hj, heq', hr⟩ := hruns o ho hr
      exact ⟨j, hj, heq'.trans heq, hr⟩
    · obtain ⟨o, ho, heq, hq⟩ := hwaits j hj hq
      obtain ⟨j', hj', heq', hq⟩ := hdoes.waits hm o ho hq
      exact ⟨j', hj', heq'.trans heq, hq⟩

/-- The backup may still end, but the delete job is not claimed. -/
theorem held_frozen_waiting :
    ∃ j' ∈ (({ waiting with maintenance := true }.finishJob "b" .succeeded "done" "" 1).claimJob
      2).2.jobs, j'.id = "j" ∧ j'.state = .queued := by
  obtain ⟨db, hjobs, hids, hrun⟩ := reachable_waiting
  have hon : Step ⟨waiting, some "b"⟩ ⟨{ waiting with maintenance := true }, some "b"⟩ :=
    .shared (q := .setMaintenance true) trivial rfl
  exact (held_frozen ⟨db, hjobs, hids, hrun.tail hon⟩ rfl
    ((Relation.ReflTransGen.single ⟨.ends (.finish _ _ _ _ (Or.inl rfl)), rfl⟩).tail
      ⟨.claim 2, rfl⟩)).2.2 (Database.deleteJob "j" removable 0)
    (List.mem_cons_of_mem _ List.mem_cons_self) rfl

end Queue

end Pgfy
