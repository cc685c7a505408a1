import Pgfy.Jobs.Schedule

/-! # No project overtakes another twice

    The scheduler takes the candidate that was attempted least recently. An
    attempt is recorded when it is enqueued and again when it ends, and while it
    lasts nothing else is enqueued. So between two scheduled backups of one
    project every other candidate has had its turn.
-/

namespace Pgfy

open Calendar Storage

variable {now : Instant} {log : List QueueNote} {n : QueueNote} {q : String} {u : ℤ}

/-- A backup of the project is queued or running. -/
def Database.ActiveBackup (db : Database) (projectID : String) : Prop :=
  ∃ j ∈ db.jobs, j.kind = .backup ∧ j.active = true ∧ j.projectID = some projectID

/-! ### Jobs and the worker -/

/-- What holds of jobs and the worker in every run. -/
structure QueueState.Sound (s : QueueState) : Prop where
  ids : (s.db.jobs.map Job.id).Nodup
  /-- The job the worker runs is running. -/
  working : ∀ j progress, s.worker = .working j progress → ∃ o ∈ s.db.jobs,
    o.id = j.id ∧ o.kind = .backup ∧ o.state = .running ∧ o.projectID = j.projectID
  /-- The order of the candidates is right as long as none can be overtaken. -/
  choosing : ∀ now candidates, s.worker = .choosing now candidates →
    (∃ j ∈ s.db.jobs, j.kind = .backup ∧ j.active = true) ∨
      candidates.Pairwise (fun p q => s.db.lastAttempt p.id ≤ s.db.lastAttempt q.id)

/-- The row of a job that ends is no longer active; the others stay. -/
theorem Database.mem_finishJob {id : String} {state : JobState} {stage error : String}
    {db : Database} {j : Job} (hstate : state = .succeeded ∨ state = .failed)
    (h : j ∈ (db.finishJob id state stage error now).jobs) (hactive : j.active = true) :
    j ∈ db.jobs := by
  obtain ⟨o, ho, rfl⟩ := Table.mem_modify.mp h
  by_cases hid : o.id = id
  · rw [if_pos hid] at hactive
    rcases hstate with rfl | rfl <;> simp [Job.active] at hactive
  · rw [if_neg hid]
    exact ho

theorem Database.nodup_modifyJob {id : String} {f : Job → Job} {db : Database}
    (h : (db.jobs.map Job.id).Nodup) (hf : ∀ j, (f j).id = j.id) :
    ((db.modifyJob id f).jobs.map Job.id).Nodup := by
  rw [modifyJob, Table.map_key_modify (fun j _ hj => (hf j).trans hj)]
  exact h

/-- The rows after an interruption that are still active were so before. -/
theorem Database.mem_interrupted {jobs : List Job} {ids : List String} {j : Job}
    (h : j ∈ jobs.map (fun j => if j.id ∈ ids then interrupted now j else j))
    (hactive : j.active = true) : j ∈ jobs := by
  obtain ⟨o, ho, rfl⟩ := List.mem_map.mp h
  by_cases hid : o.id ∈ ids
  · rw [if_pos hid] at hactive
    simp [Job.active, interrupted] at hactive
  · rw [if_neg hid]
    exact ho

theorem Database.nodup_interrupted {jobs : List Job} {ids : List String}
    (h : (jobs.map Job.id).Nodup) :
    ((jobs.map (fun j => if j.id ∈ ids then interrupted now j else j)).map Job.id).Nodup := by
  have hids : Job.id ∘ (fun j => if j.id ∈ ids then interrupted now j else j) = Job.id := by
    funext j
    simp only [Function.comp]
    split <;> rfl
  rw [List.map_map, hids]
  exact h

/-- A claim makes the oldest queued job run and returns it. -/
theorem Database.claimJob_some {db db' : Database} {j : Job} (h : db.claimJob now = (some j, db')) :
    ∃ o ∈ db.jobs, o.state = .queued ∧ o.id = j.id ∧ o.kind = j.kind ∧
      o.projectID = j.projectID ∧
      db' = db.modifyJob j.id (fun o => { o with
        state := .running, stage := "starting", startedAt := unix now, stageAt := unix now }) := by
  unfold claimJob at h
  split at h
  · cases h
  · next o holdest =>
    split at h
    · cases h
    · cases h
      have hmem : o ∈ db.jobs.filter (·.state = .queued) := by
        have := List.mem_of_head? holdest
        simpa using this
      obtain ⟨hjobs, hqueued⟩ := List.mem_filter.mp hmem
      exact ⟨o, hjobs, by simpa using hqueued, rfl, rfl, rfl, rfl⟩

/-! ### What a step can do to attempts -/

/-- The time of an enqueue or of an outcome. -/
def QueueNote.time : QueueNote → Option ℤ
  | .enqueued t _ _ => some t
  | .outcome t => some t
  | _ => none

/-- All that a step can do to the attempts, their jobs and the log's times. -/
inductive QueueState.Effect (s s' : QueueState) : Prop where
  | none (last : ∀ q, s'.db.lastAttempt q = s.db.lastAttempt q)
      (active : ∀ q, s'.db.ActiveBackup q → s.db.ActiveBackup q)
      (log : s'.log = s.log ∨ ∃ n : QueueNote, n.time = .none ∧ s'.log = n :: s.log)
  | attempt (t p c) (log : s'.log = .enqueued t p c :: s.log)
      (alone : ∀ q, ¬ s.db.ActiveBackup q)
      (last : ∀ q, s'.db.lastAttempt q = if q = p then t else s.db.lastAttempt q)
      (active : ∀ q, s'.db.ActiveBackup q → q = p)
      (first : ∀ candidates, c = some candidates →
        ∀ q ∈ candidates, s.db.lastAttempt p ≤ s.db.lastAttempt q.id)
  | ended (t) (log : s'.log = .outcome t :: s.log)
      (last : ∀ q, s'.db.lastAttempt q = s.db.lastAttempt q ∨
        (s'.db.lastAttempt q = t ∧ s.db.ActiveBackup q))
      (active : ∀ q, s'.db.ActiveBackup q → s.db.ActiveBackup q)

namespace QueueState

variable {s : QueueState}

/-- Rows changed without new active backups. -/
theorem activeBackup_of_mem {db db' : Database}
    (h : ∀ j ∈ db'.jobs, j.kind = .backup → j.active = true → ∃ o ∈ db.jobs,
      o.kind = .backup ∧ o.active = true ∧ o.projectID = j.projectID) (q : String)
    (hq : db'.ActiveBackup q) : db.ActiveBackup q := by
  obtain ⟨j, hj, hkind, hactive, hproject⟩ := hq
  obtain ⟨o, ho, hkind', hactive', hproject'⟩ := h j hj hkind hactive
  exact ⟨o, ho, hkind', hactive', hproject'.trans hproject⟩

theorem effect_enqueue {id projectID : String} {candidates : Option (List Project)}
    (hfirst : (∀ o ∈ s.db.jobs, o.active = false) → ∀ cs, candidates = some cs →
      ∀ q ∈ cs, s.db.lastAttempt projectID ≤ s.db.lastAttempt q.id) :
    s.Effect (s.enqueue id projectID candidates now) := by
  rcases s.enqueue_cases id projectID candidates now with heq | ⟨db, hok, heq⟩
  · rw [heq]
    exact .none (fun _ => rfl) (fun _ h => h) (Or.inl rfl)
  · rw [heq]
    obtain ⟨-, hidle, -, -, schedules, -, hdb⟩ := Database.enqueue_ok hok
    refine .attempt (unix now) projectID candidates rfl ?_ ?_ ?_ (hfirst hidle)
    · rintro q ⟨j, hj, -, hactive, -⟩
      rw [hidle j hj] at hactive
      cases hactive
    · exact fun q => Database.lastAttempt_enqueue hok
    · rintro q ⟨j, hj, -, hactive, hproject⟩
      have hmem : j ∈ s.db.jobs ++
          [Database.newJob id .backup (some projectID) (.backup candidates.isSome)
            candidates.isSome now] := by
        rw [hdb] at hj
        exact hj
      rcases List.mem_append.mp hmem with hj | hj
      · rw [hidle j hj] at hactive
        cases hactive
      · cases List.mem_singleton.mp hj
        exact (Option.some.inj hproject).symm

theorem effect_complete (h : s.Sound) {j : Job} {progress : Progress}
    (hworker : s.worker = .working j progress) {state : JobState}
    (hstate : state = .succeeded ∨ state = .failed) {stage error : String} {backup : Option Backup}
    {interval : ℤ} : s.Effect (s.complete j state stage error backup now interval) := by
  rcases s.complete_cases j state stage error backup now interval with ⟨db, hok, heq⟩ | heq
  · rw [heq]
    obtain ⟨backups, schedules, -, hdb⟩ := Database.completeBackupJob_ok hok
    refine .ended (unix now) rfl ?_ ?_
    · intro q
      rcases Database.lastAttempt_completeBackupJob (q := q) hok with hsame | ⟨hproject, hlast⟩
      · exact Or.inl hsame
      · obtain ⟨o, ho, -, hkind, hrunning, hown⟩ := h.working j progress hworker
        exact Or.inr ⟨hlast, o, ho, hkind, Job.active_of_running hrunning, hown.trans hproject⟩
    · refine activeBackup_of_mem (fun o ho hkind hactive => ?_)
      have hmem : o ∈ (s.db.finishJob j.id state stage error now).jobs := by
        rw [hdb] at ho
        exact ho
      exact ⟨o, Database.mem_finishJob hstate hmem hactive, hkind, hactive, rfl⟩
  · rw [heq]
    exact .none (fun _ => rfl) (fun _ h => h) (Or.inr ⟨_, rfl, rfl⟩)

theorem effect_restart {interval : ℤ} : s.Effect (s.restart now interval) := by
  rcases s.restart_cases now interval with ⟨db, hok, heq⟩ | heq
  · rw [heq]
    obtain ⟨events, schedules, -, -, hdb⟩ := Database.interruptRunningJobs_ok hok
    have hactive : ∀ q, db.ActiveBackup q → s.db.ActiveBackup q := by
      refine activeBackup_of_mem (fun o ho hkind hactive => ?_)
      rw [hdb] at ho
      exact ⟨o, Database.mem_interrupted ho hactive, hkind, hactive, rfl⟩
    have hlast : ∀ q, db.lastAttempt q = s.db.lastAttempt q ∨
        (db.lastAttempt q = unix now ∧ s.db.ActiveBackup q ∧ s.busy = true) := by
      intro q
      rcases Database.lastAttempt_foldlM_interruptJob (q := q) hok with
        hsame | ⟨hnow, j, hj, hkind, hproject⟩
      · exact Or.inl hsame
      · obtain ⟨hmem, hrunning⟩ := List.mem_filter.mp hj
        have hrunning' : j.state = .running := by simpa using hrunning
        refine Or.inr ⟨hnow, ⟨j, hmem, hkind, Job.active_of_running hrunning', hproject⟩, ?_⟩
        exact List.any_eq_true.mpr ⟨j, hmem, by simp [hkind, hrunning']⟩
    cases hbusy : s.busy with
    | true =>
      refine .ended (unix now) (by simp) (fun q => ?_) hactive
      rcases hlast q with hsame | ⟨hnow, hq, -⟩
      · exact Or.inl hsame
      · exact Or.inr ⟨hnow, hq⟩
    | false =>
      refine .none (fun q => ?_) hactive (Or.inl (by simp))
      rcases hlast q with hsame | ⟨-, -, hrunning⟩
      · exact hsame
      · rw [hbusy] at hrunning
        cases hrunning
  · rw [heq]
    exact .none (fun _ => rfl) (fun _ h => h) (Or.inl rfl)

theorem Effect.of_worker {s' : QueueState} {worker : Worker}
    (h : QueueState.Effect { s with worker := worker } s') : s.Effect s' := by
  cases h with
  | none last active log => exact .none last active log
  | attempt t p c log alone last active first => exact .attempt t p c log alone last active first
  | ended t log last active => exact .ended t log last active

/-- A claimed job's row was queued and is running; the others stay. -/
theorem Sound.mem_claim (h : s.Sound) {j : Job} {db : Database}
    (hclaim : s.db.claimJob now = (some j, db)) {o : Job} (ho : o ∈ db.jobs) :
    ∃ o' ∈ s.db.jobs, o.id = o'.id ∧ o.kind = o'.kind ∧ o.projectID = o'.projectID ∧
      (o = o' ∨ (o'.state = .queued ∧ o.state = .running)) := by
  obtain ⟨o₁, ho₁, hqueued, hid, -, -, rfl⟩ := Database.claimJob_some hclaim
  obtain ⟨o', ho', rfl⟩ := Table.mem_modify.mp ho
  refine ⟨o', ho', ?_⟩
  by_cases hsame : o'.id = j.id
  · rw [if_pos hsame]
    have hrow : o' = o₁ := List.inj_on_of_nodup_map h.ids ho' ho₁ (hsame.trans hid.symm)
    exact ⟨rfl, rfl, rfl, Or.inr ⟨hrow ▸ hqueued, rfl⟩⟩
  · rw [if_neg hsame]
    exact ⟨rfl, rfl, rfl, Or.inl rfl⟩

/-- A job's folder is recorded in its row, which stays as active as it was. -/
theorem mem_setJobTarget {id : String} {target key : Text} {db : Database} {o : Job}
    (ho : o ∈ (db.setJobTarget id target key).jobs) :
    ∃ o' ∈ db.jobs, o.id = o'.id ∧ o.kind = o'.kind ∧ o.projectID = o'.projectID ∧
      o.state = o'.state := by
  obtain ⟨o', ho', rfl⟩ := Table.mem_modify.mp ho
  refine ⟨o', ho', ?_⟩
  split <;> exact ⟨rfl, rfl, rfl, rfl⟩

theorem effect_step {installationID : String} {s' : QueueState} (h : s.Sound)
    (step : QueueStep installationID s s') : s.Effect s' := by
  cases step with
  | consider settings policy now _ _ _ =>
    exact .none (fun _ => rfl) (fun _ h => h) (Or.inl rfl)
  | @choose id now candidates at_ =>
    cases candidates with
    | nil => exact .none (fun _ => rfl) (fun _ h => h) (Or.inl rfl)
    | cons p rest =>
      refine Effect.of_worker (effect_enqueue (fun hidle cs hcs q hq => ?_))
      cases hcs
      -- nothing is active, so the order read before still holds
      rcases h.choosing now (p :: rest) at_ with ⟨j, hj, -, hactive⟩ | hsorted
      · rw [hidle j hj] at hactive
        cases hactive
      · rcases List.mem_cons.mp hq with rfl | hq
        · exact le_refl _
        · exact (List.pairwise_cons.mp hsorted).1 q hq
  | request id projectID now => exact effect_enqueue (fun _ cs hcs => by cases hcs)
  | @claim now j db _ claimed _ =>
    have hschedules : db.schedules = s.db.schedules := by
      obtain ⟨_, -, -, -, -, -, rfl⟩ := Database.claimJob_some claimed
      rfl
    refine .none (fun q => Database.lastAttempt_congr hschedules) ?_ (Or.inl rfl)
    · refine activeBackup_of_mem (fun o ho hkind hactive => ?_)
      obtain ⟨o', ho', -, hkind', hproject, hcase⟩ := h.mem_claim claimed ho
      refine ⟨o', ho', hkind' ▸ hkind, ?_, hproject.symm⟩
      rcases hcase with rfl | ⟨hqueued, -⟩
      · exact hactive
      · simp [Job.active, hqueued]
  | @name settings p now j _ _ _ _ _ =>
    refine .none (fun _ => rfl) ?_ (Or.inr ⟨_, rfl, rfl⟩)
    refine activeBackup_of_mem (fun o ho hkind hactive => ?_)
    obtain ⟨o', ho', -, hkind', hproject, hstate⟩ := mem_setJobTarget ho
    refine ⟨o', ho', hkind' ▸ hkind, ?_, hproject.symm⟩
    simpa [Job.active, hstate] using hactive
  | archive _ | publish _ => exact .none (fun _ => rfl) (fun _ h => h) (Or.inr ⟨_, rfl, rfl⟩)
  | succeed id sizeBytes now interval at_ => exact effect_complete h at_ (Or.inl rfl)
  | fail stage error now interval at_ => exact effect_complete h at_ (Or.inr rfl)
  | restart now interval => exact effect_restart
  | @aside db change =>
    refine .none (fun q => Database.lastAttempt_congr change.schedules) ?_ (Or.inl rfl)
    exact activeBackup_of_mem (fun j hj hkind hactive =>
      ⟨j, (change.jobs j hkind hactive).mp hj, hkind, hactive, rfl⟩)

/-- An enqueue adds an active row with a new id, or does nothing. -/
theorem enqueue_jobs (id projectID : String) (candidates : Option (List Project))
    (now : Instant) :
    s.enqueue id projectID candidates now = s ∨ ∃ j : Job, j.kind = .backup ∧ j.active = true ∧
      (∀ o ∈ s.db.jobs, o.id ≠ j.id) ∧
      (s.enqueue id projectID candidates now).db.jobs = s.db.jobs ++ [j] ∧
      (s.enqueue id projectID candidates now).worker = s.worker := by
  rcases s.enqueue_cases id projectID candidates now with heq | ⟨db, hok, heq⟩
  · exact Or.inl heq
  · obtain ⟨-, -, hids, -, schedules, -, hdb⟩ := Database.enqueue_ok hok
    refine Or.inr ⟨Database.newJob id .backup (some projectID) (.backup candidates.isSome)
      candidates.isSome now, rfl, rfl, hids, ?_, ?_⟩
    · rw [heq, hdb]
    · rw [heq]

theorem Sound.enqueue (h : s.Sound) (id projectID : String)
    (candidates : Option (List Project)) (now : Instant) :
    (s.enqueue id projectID candidates now).Sound := by
  rcases s.enqueue_jobs id projectID candidates now with
    heq | ⟨j, hkind, hactive, hids, hjobs, hworker⟩
  · rw [heq]
    exact h
  · refine ⟨?_, ?_, ?_⟩
    · rw [hjobs, List.map_append]
      refine List.nodup_append.mpr ⟨h.ids, List.nodup_singleton _, ?_⟩
      rintro a ha b hb rfl
      obtain ⟨o, ho, hid⟩ := List.mem_map.mp ha
      exact hids o ho (hid.trans (List.mem_singleton.mp hb))
    · intro j' progress hw
      obtain ⟨o, ho, hrest⟩ := h.working j' progress (hworker ▸ hw)
      exact ⟨o, hjobs ▸ List.mem_append_left _ ho, hrest⟩
    · intro now' cs _
      exact Or.inl ⟨j, hjobs ▸ List.mem_append_right _ (List.mem_singleton.mpr rfl), hkind, hactive⟩

/-- With an idle worker only the ids matter. -/
theorem Sound.of_idle (hids : (s.db.jobs.map Job.id).Nodup) (hidle : s.worker = .idle) :
    s.Sound := by
  refine ⟨hids, ?_, ?_⟩
  · intro j progress hw
    rw [hidle] at hw
    cases hw
  · intro now cs hw
    rw [hidle] at hw
    cases hw

theorem Sound.complete (h : s.Sound) (j : Job) (state : JobState) (stage error : String)
    (backup : Option Backup) (now : Instant) (interval : ℤ) :
    (s.complete j state stage error backup now interval).Sound := by
  rcases s.complete_cases j state stage error backup now interval with ⟨db, hok, heq⟩ | heq
  · rw [heq]
    obtain ⟨backups, schedules, -, hdb⟩ := Database.completeBackupJob_ok hok
    refine Sound.of_idle ?_ rfl
    rw [hdb]
    exact Database.nodup_modifyJob h.ids (fun _ => rfl)
  · rw [heq]
    exact Sound.of_idle h.ids rfl

theorem Sound.restart (h : s.Sound) (now : Instant) (interval : ℤ) :
    (s.restart now interval).Sound := by
  rcases s.restart_cases now interval with ⟨db, hok, heq⟩ | heq
  · rw [heq]
    obtain ⟨events, schedules, -, -, hdb⟩ := Database.interruptRunningJobs_ok hok
    refine Sound.of_idle ?_ rfl
    rw [hdb]
    exact Database.nodup_interrupted h.ids
  · rw [heq]
    exact Sound.of_idle h.ids rfl

/-- The worker goes on with the job it runs. -/
theorem Sound.upload (h : s.Sound) {j : Job} {progress : Progress} {u : Upload}
    (hworker : s.worker = .working j progress) (progress' : Progress) (key : Text) :
    (s.upload j u progress' key).Sound := by
  refine ⟨h.ids, ?_, ?_⟩
  · intro j' _ hw
    cases hw
    exact h.working j progress hworker
  · intro now cs hw
    cases hw

theorem sound_step {installationID : String} {s' : QueueState} (h : s.Sound)
    (step : QueueStep installationID s s') : s'.Sound := by
  cases step with
  | consider settings policy now _ _ _ =>
    refine ⟨h.ids, ?_, ?_⟩
    · intro j progress hw
      cases hw
    · intro now' cs hw
      cases hw
      exact Or.inr Database.backupCandidates_sorted
  | @choose id now candidates at_ =>
    cases candidates with
    | nil => exact Sound.of_idle h.ids rfl
    | cons p rest =>
      exact (Sound.of_idle (s := { s with worker := .idle }) h.ids rfl).enqueue id p.id _ now
  | request id projectID now => exact h.enqueue id projectID none now
  | @claim now j db _ claimed backup =>
    obtain ⟨o, ho, hqueued, hid, hkind, hproject, rfl⟩ := Database.claimJob_some claimed
    refine ⟨?_, ?_, ?_⟩
    · exact Database.nodup_modifyJob h.ids (fun _ => rfl)
    · intro j' progress hw
      cases hw
      refine ⟨_, Table.mem_modify.mpr ⟨o, ho, rfl⟩, ?_⟩
      rw [if_pos hid]
      exact ⟨hid, hkind.trans backup, rfl, hproject⟩
    · intro now' cs hw
      cases hw
  | @name settings p now j at_ _ _ _ _ =>
    refine ⟨?_, ?_, ?_⟩
    · exact Database.nodup_modifyJob h.ids (fun _ => rfl)
    · intro j' progress hw
      cases hw
      obtain ⟨o, ho, hid, hkind, hrunning, hproject⟩ := h.working j _ at_
      refine ⟨_, Table.mem_modify.mpr ⟨o, ho, rfl⟩, ?_⟩
      rw [if_pos hid]
      exact ⟨hid, hkind, hrunning, hproject⟩
    · intro now' cs hw
      cases hw
  | archive at_ | publish at_ => exact h.upload at_ _ _
  | succeed id sizeBytes now interval _ | fail stage error now interval _ =>
    exact h.complete _ _ _ _ _ now interval
  | restart now interval => exact h.restart now interval
  | @aside db change =>
    refine ⟨change.ids, ?_, ?_⟩
    · intro j progress hw
      obtain ⟨o, ho, hid, hkind, hrunning, hproject⟩ := h.working j progress hw
      exact ⟨o, (change.jobs o hkind (Job.active_of_running hrunning)).mpr ho, hid, hkind,
        hrunning, hproject⟩
    · intro now cs hw
      rcases h.choosing now cs hw with ⟨j, hj, hkind, hactive⟩ | hsorted
      · exact Or.inl ⟨j, (change.jobs j hkind hactive).mpr hj, hkind, hactive⟩
      · refine Or.inr (hsorted.imp (fun hle => ?_))
        rw [Database.lastAttempt_congr change.schedules,
          Database.lastAttempt_congr change.schedules]
        exact hle

end QueueState

/-! ### Times -/

/-- Enqueue and outcome times strictly increase, in seconds, from `0`, which
    stands for never. -/
def Timed (log : List QueueNote) : Prop :=
  (log.filterMap QueueNote.time ++ [0]).Pairwise (· > ·)

theorem Timed.tail (h : Timed (n :: log)) : Timed log := by
  unfold Timed at h ⊢
  cases hn : n.time with
  | none => rwa [List.filterMap_cons_none hn] at h
  | some t =>
    rw [List.filterMap_cons_some hn, List.cons_append] at h
    exact (List.pairwise_cons.mp h).2

/-- The newest time is later than every other, and than never. -/
theorem Timed.head {t : ℤ} (h : Timed (n :: log)) (hn : n.time = some t) :
    0 < t ∧ ∀ m ∈ log, ∀ t' ∈ m.time, t' < t := by
  unfold Timed at h
  rw [List.filterMap_cons_some hn, List.cons_append] at h
  have hall := (List.pairwise_cons.mp h).1
  refine ⟨hall 0 (List.mem_append_right _ (List.mem_singleton.mpr rfl)), fun m hm t' ht' => ?_⟩
  exact hall t' (List.mem_append_left _ (List.mem_filterMap.mpr ⟨m, hm, ht'⟩))

/-- A backup of `q` was enqueued at `u`. -/
def Attempted (log : List QueueNote) (q : String) (u : ℤ) : Prop :=
  ∃ candidates, .enqueued u q candidates ∈ log

theorem Attempted.cons (h : Attempted log q u) (n : QueueNote) : Attempted (n :: log) q u := by
  obtain ⟨c, hc⟩ := h
  exact ⟨c, List.mem_cons_of_mem _ hc⟩

/-- An attempt in a longer log is the newest note or an earlier attempt. -/
theorem attempted_cons (h : Attempted (n :: log) q u) :
    (∃ c, n = .enqueued u q c) ∨ Attempted log q u := by
  obtain ⟨c, hc⟩ := h
  rcases List.mem_cons.mp hc with heq | hc
  · exact Or.inl ⟨c, heq.symm⟩
  · exact Or.inr ⟨c, hc⟩

/-- The newest attempt is one of `q`. -/
def NewestAttempt (log : List QueueNote) (q : String) : Prop :=
  ∃ u, Attempted log q u ∧ ∀ q' u', Attempted log q' u' → u' ≤ u

/-- Between two scheduled backups of one project each other candidate of the
    second was attempted. -/
def NoneOvertakenTwice (log : List QueueNote) : Prop :=
  ∀ later t₂ p candidates earlier,
    log = later ++ .enqueued t₂ p (some candidates) :: earlier →
    ∀ t₁ candidates₁, .enqueued t₁ p (some candidates₁) ∈ earlier →
    ∀ q ∈ candidates, q.id ≠ p → ∃ u, Attempted earlier q.id u ∧ t₁ < u ∧ u < t₂

/-- What the schedule says of the log. -/
structure QueueState.Fair (s : QueueState) : Prop where
  /-- No attempt is later than the recorded one. -/
  bound : ∀ q u, Attempted s.log q u → u ≤ s.db.lastAttempt q
  /-- A recorded time belongs to an attempt after which nothing was enqueued
      until then. -/
  origin : ∀ q, s.db.lastAttempt q = 0 ∨ ∃ u, Attempted s.log q u ∧
    u ≤ s.db.lastAttempt q ∧ ∀ q' u', Attempted s.log q' u' → u < u' → s.db.lastAttempt q < u'
  recorded : ∀ q, s.db.lastAttempt q = 0 ∨ ∃ n ∈ s.log, n.time = some (s.db.lastAttempt q)
  active : ∀ q, s.db.ActiveBackup q → NewestAttempt s.log q
  order : NoneOvertakenTwice s.log

/-! ### Every step is fair -/

theorem attempted_cons_iff (hn : ∀ t p c, n ≠ .enqueued t p c) :
    Attempted (n :: log) q u ↔ Attempted log q u := by
  constructor
  · intro h
    rcases attempted_cons h with ⟨c, heq⟩ | h
    · exact absurd heq (hn u q c)
    · exact h
  · exact fun h => h.cons n

theorem Attempted.time (h : Attempted log q u) : ∃ n ∈ log, n.time = some u := by
  obtain ⟨c, hc⟩ := h
  exact ⟨_, hc, rfl⟩

theorem Timed.pos (h : Timed log) (hu : Attempted log q u) : 0 < u := by
  induction log with
  | nil =>
    obtain ⟨c, hc⟩ := hu
    exact absurd hc List.not_mem_nil
  | cons n log ih =>
    rcases attempted_cons hu with ⟨c, rfl⟩ | hu
    · exact (h.head rfl).1
    · exact ih h.tail hu

/-- No two projects are attempted at one time. -/
theorem Timed.unique (h : Timed log) {q q' : String} (hu : Attempted log q u)
    (hu' : Attempted log q' u) : q = q' := by
  induction log with
  | nil =>
    obtain ⟨c, hc⟩ := hu
    exact absurd hc List.not_mem_nil
  | cons n log ih =>
    rcases attempted_cons hu with ⟨c, rfl⟩ | hold
    · rcases attempted_cons hu' with ⟨c', heq⟩ | hold'
      · cases heq
        rfl
      · obtain ⟨m, hm, htime⟩ := hold'.time
        exact absurd ((h.head rfl).2 m hm u htime) (lt_irrefl u)
    · rcases attempted_cons hu' with ⟨c', rfl⟩ | hold'
      · obtain ⟨m, hm, htime⟩ := hold.time
        exact absurd ((h.head rfl).2 m hm u htime) (lt_irrefl u)
      · exact ih h.tail hold hold'

theorem NoneOvertakenTwice.cons (h : NoneOvertakenTwice log)
    (hn : ∀ t₂ p candidates, n = .enqueued t₂ p (some candidates) →
      ∀ t₁, Attempted log p t₁ → ∀ q ∈ candidates, q.id ≠ p →
        ∃ u, Attempted log q.id u ∧ t₁ < u ∧ u < t₂) :
    NoneOvertakenTwice (n :: log) := by
  intro later t₂ p candidates earlier heq
  cases later with
  | nil =>
    obtain ⟨hhead, rfl⟩ := List.cons.inj heq
    exact fun t₁ c hc => hn t₂ p candidates hhead t₁ ⟨some c, hc⟩
  | cons m later => exact h later t₂ p candidates earlier (List.cons.inj heq).2

namespace QueueState.Fair

variable {s s' : QueueState}

/-- Steps that enqueue nothing and end nothing. -/
theorem quiet (h : s.Fair) (hlast : ∀ q, s'.db.lastAttempt q = s.db.lastAttempt q)
    (hactive : ∀ q, s'.db.ActiveBackup q → s.db.ActiveBackup q)
    (hattempts : ∀ q u, Attempted s'.log q u ↔ Attempted s.log q u)
    (hlog : ∀ n ∈ s.log, n ∈ s'.log) (horder : NoneOvertakenTwice s'.log) : s'.Fair := by
  refine ⟨?_, ?_, ?_, ?_, horder⟩
  · intro q u hu
    rw [hlast]
    exact h.bound q u ((hattempts q u).mp hu)
  · intro q
    rw [hlast]
    rcases h.origin q with hzero | ⟨u, hu, hle, hlater⟩
    · exact Or.inl hzero
    · exact Or.inr ⟨u, (hattempts q u).mpr hu, hle,
        fun q' u' hu' => hlater q' u' ((hattempts q' u').mp hu')⟩
  · intro q
    rw [hlast]
    rcases h.recorded q with hzero | ⟨n, hn, htime⟩
    · exact Or.inl hzero
    · exact Or.inr ⟨n, hlog n hn, htime⟩
  · intro q hq
    obtain ⟨u, hu, hmax⟩ := h.active q (hactive q hq)
    exact ⟨u, (hattempts q u).mpr hu, fun q' u' hu' => hmax q' u' ((hattempts q' u').mp hu')⟩

/-- The end of attempts. -/
theorem ended (h : s.Fair) {t : ℤ} (hlog : s'.log = .outcome t :: s.log) (htimed : Timed s'.log)
    (hlast : ∀ q, s'.db.lastAttempt q = s.db.lastAttempt q ∨
      (s'.db.lastAttempt q = t ∧ s.db.ActiveBackup q))
    (hactive : ∀ q, s'.db.ActiveBackup q → s.db.ActiveBackup q) : s'.Fair := by
  have hattempts : ∀ q u, Attempted s'.log q u ↔ Attempted s.log q u := by
    intro q u
    rw [hlog]
    exact attempted_cons_iff (fun _ _ _ heq => by cases heq)
  rw [hlog] at htimed
  have hbefore : ∀ q u, Attempted s.log q u → u < t := by
    intro q u hu
    obtain ⟨n, hn, htime⟩ := hu.time
    exact (htimed.head rfl).2 n hn u htime
  refine ⟨?_, ?_, ?_, ?_, ?_⟩
  · intro q u hu
    have hu' := (hattempts q u).mp hu
    rcases hlast q with hsame | ⟨hnow, -⟩
    · exact hsame ▸ h.bound q u hu'
    · exact hnow ▸ (hbefore q u hu').le
  · intro q
    rcases hlast q with hsame | ⟨hnow, hq⟩
    · rw [hsame]
      rcases h.origin q with hzero | ⟨u, hu, hle, hlater⟩
      · exact Or.inl hzero
      · exact Or.inr ⟨u, (hattempts q u).mpr hu, hle,
          fun q' u' hu' => hlater q' u' ((hattempts q' u').mp hu')⟩
    · -- the attempt that ends is the newest, so nothing came after it
      obtain ⟨u, hu, hmax⟩ := h.active q hq
      rw [hnow]
      refine Or.inr ⟨u, (hattempts q u).mpr hu, (hbefore q u hu).le, fun q' u' hu' hlt => ?_⟩
      have := hmax q' u' ((hattempts q' u').mp hu')
      omega
  · intro q
    rw [hlog]
    rcases hlast q with hsame | ⟨hnow, -⟩
    · rw [hsame]
      rcases h.recorded q with hzero | ⟨n, hn, htime⟩
      · exact Or.inl hzero
      · exact Or.inr ⟨n, List.mem_cons_of_mem _ hn, htime⟩
    · exact Or.inr ⟨_, List.mem_cons_self, congrArg some hnow.symm⟩
  · intro q hq
    obtain ⟨u, hu, hmax⟩ := h.active q (hactive q hq)
    exact ⟨u, (hattempts q u).mpr hu, fun q' u' hu' => hmax q' u' ((hattempts q' u').mp hu')⟩
  · rw [hlog]
    exact h.order.cons (fun _ _ _ heq => by cases heq)

/-- A candidate that is not before `p` was attempted after `p` was. -/
theorem attempted_between (h : s.Fair) (htimed : Timed s.log) {p q : String} {t₁ : ℤ}
    (hp : Attempted s.log p t₁) (hne : q ≠ p)
    (hle : s.db.lastAttempt p ≤ s.db.lastAttempt q) : ∃ u, Attempted s.log q u ∧ t₁ < u := by
  have hbound := h.bound p t₁ hp
  have hpos := htimed.pos hp
  rcases h.origin q with hzero | ⟨u, hu, -, hlater⟩
  · omega
  · refine ⟨u, hu, ?_⟩
    rcases lt_trichotomy u t₁ with hlt | heq | hgt
    · have := hlater p t₁ hp hlt
      omega
    · exact absurd (htimed.unique hu (heq ▸ hp)) hne
    · exact hgt

/-- A new attempt. -/
theorem attempt (h : s.Fair) {t : ℤ} {p : String} {c : Option (List Project)}
    (hlog : s'.log = .enqueued t p c :: s.log) (htimed : Timed s'.log)
    (hlast : ∀ q, s'.db.lastAttempt q = if q = p then t else s.db.lastAttempt q)
    (hactive : ∀ q, s'.db.ActiveBackup q → q = p)
    (hfirst : ∀ candidates, c = some candidates →
      ∀ q ∈ candidates, s.db.lastAttempt p ≤ s.db.lastAttempt q.id) : s'.Fair := by
  rw [hlog] at htimed
  obtain ⟨hpos, hhead⟩ := htimed.head rfl
  have hbefore : ∀ q u, Attempted s.log q u → u < t := by
    intro q u hu
    obtain ⟨n, hn, htime⟩ := hu.time
    exact hhead n hn u htime
  have hcases : ∀ q u, Attempted s'.log q u → (q = p ∧ u = t) ∨ Attempted s.log q u := by
    intro q u hu
    rw [hlog] at hu
    rcases attempted_cons hu with ⟨c', heq⟩ | hu
    · cases heq
      exact Or.inl ⟨rfl, rfl⟩
    · exact Or.inr hu
  have hnew : Attempted s'.log p t := ⟨c, hlog ▸ List.mem_cons_self⟩
  have hmax : ∀ q' u', Attempted s'.log q' u' → u' ≤ t := by
    intro q' u' hu'
    rcases hcases q' u' hu' with ⟨-, rfl⟩ | hu'
    · exact le_refl _
    · exact (hbefore q' u' hu').le
  refine ⟨?_, ?_, ?_, ?_, ?_⟩
  · intro q u hu
    rw [hlast]
    by_cases hq : q = p
    · rw [if_pos hq]
      exact hmax q u hu
    · rw [if_neg hq]
      rcases hcases q u hu with ⟨hq', -⟩ | hu
      · exact absurd hq' hq
      · exact h.bound q u hu
  · intro q
    rw [hlast]
    by_cases hq : q = p
    · rw [if_pos hq]
      refine Or.inr ⟨t, hq ▸ hnew, le_refl t, fun q' u' hu' hlt => ?_⟩
      have := hmax q' u' hu'
      omega
    · rw [if_neg hq]
      rcases h.origin q with hzero | ⟨u, hu, hle, hlater⟩
      · exact Or.inl hzero
      · refine Or.inr ⟨u, hlog ▸ hu.cons _, hle, fun q' u' hu' hlt => ?_⟩
        rcases hcases q' u' hu' with ⟨-, rfl⟩ | hu'
        · rcases h.recorded q with hzero | ⟨n, hn, htime⟩
          · exact hzero ▸ hpos
          · exact hhead n hn _ htime
        · exact hlater q' u' hu' hlt
  · intro q
    rw [hlast, hlog]
    by_cases hq : q = p
    · rw [if_pos hq]
      exact Or.inr ⟨_, List.mem_cons_self, rfl⟩
    · rw [if_neg hq]
      rcases h.recorded q with hzero | ⟨n, hn, htime⟩
      · exact Or.inl hzero
      · exact Or.inr ⟨n, List.mem_cons_of_mem _ hn, htime⟩
  · intro q hq
    exact ⟨t, hactive q hq ▸ hnew, hmax⟩
  · rw [hlog]
    refine h.order.cons (fun t₂ p' candidates heq t₁ ht₁ q hq hne => ?_)
    cases heq
    obtain ⟨u, hu, hlt⟩ := h.attempted_between htimed.tail ht₁ hne (hfirst candidates rfl q hq)
    exact ⟨u, hu, hlt, hbefore q.id u hu⟩

theorem step (h : s.Fair) (he : s.Effect s') (htimed : Timed s'.log) : s'.Fair := by
  cases he with
  | none last active log =>
    rcases log with hlog | ⟨n, hn, hlog⟩
    · exact h.quiet last active (fun q u => by rw [hlog]) (fun m hm => hlog ▸ hm)
        (hlog ▸ h.order)
    · have hnot : ∀ t p c, n ≠ .enqueued t p c := by
        rintro t p c rfl
        cases hn
      refine h.quiet last active (fun q u => ?_) (fun m hm => ?_) ?_
      · rw [hlog]
        exact attempted_cons_iff hnot
      · rw [hlog]
        exact List.mem_cons_of_mem _ hm
      · rw [hlog]
        exact h.order.cons (fun t₂ p c heq => absurd heq (hnot t₂ p (some c)))
  | attempt t p c log _ last active first => exact h.attempt log htimed last active first
  | ended t log last active => exact h.ended log htimed last active

end QueueState.Fair

theorem QueueState.Effect.timed {s s' : QueueState} (he : s.Effect s') (h : Timed s'.log) :
    Timed s.log := by
  cases he with
  | none _ _ log =>
    rcases log with hlog | ⟨n, -, hlog⟩
    · exact hlog ▸ h
    · rw [hlog] at h
      exact h.tail
  | attempt t p c log _ _ _ _ | ended t log _ _ =>
    rw [log] at h
    exact h.tail

theorem QueueRun.sound {installationID : String} {s : QueueState}
    (h : QueueRun installationID s) : s.Sound := by
  induction h with
  | start jobs _ _ idle _ =>
    refine QueueState.Sound.of_idle ?_ idle
    rw [jobs]
    exact List.nodup_nil
  | step _ step ih => exact QueueState.sound_step ih step

theorem QueueRun.fair {installationID : String} {s : QueueState}
    (h : QueueRun installationID s) (htimed : Timed s.log) : s.Fair := by
  induction h with
  | @start s jobs schedules _ _ log =>
    have hnone : ∀ q u, ¬ Attempted s.log q u := by
      rintro q u ⟨c, hc⟩
      rw [log] at hc
      exact absurd hc List.not_mem_nil
    have hlast : ∀ q, s.db.lastAttempt q = 0 := by
      intro q
      simp [Database.lastAttempt, schedules, Table.find]
    refine ⟨fun q u hu => absurd hu (hnone q u), fun q => Or.inl (hlast q),
      fun q => Or.inl (hlast q), ?_, ?_⟩
    · rintro q ⟨j, hj, -⟩
      rw [jobs] at hj
      exact absurd hj List.not_mem_nil
    · intro later t₂ p candidates earlier heq
      rw [log] at heq
      simp at heq
  | step run step ih =>
    have heffect := QueueState.effect_step run.sound step
    exact (ih (heffect.timed htimed)).step heffect htimed

/-- In every run whose enqueue and outcome times strictly increase, a project
    that the scheduler enqueues twice has let every other candidate of the second
    time have an attempt in between. -/
theorem scheduler_overtakes_once {installationID : String} {s : QueueState}
    (h : QueueRun installationID s) (htimed : Timed s.log) : NoneOvertakenTwice s.log :=
  (h.fair htimed).order

/-! ### Two shops whose backups fail -/

def shopStore : Settings := ⟨"s3".toList, "b".toList, [], .acknowledged⟩

def shopProject (id : String) (createdAt : ℤ) : Project where
  id := id
  name := id
  dbName := id.toList
  roleName := id.toList
  idempotencyKey := id
  stage := .ready
  createdAt := createdAt

/-- Two ready projects and a bucket that has been read. -/
def shopStart : QueueState where
  db := {
    projects := [shopProject "a" 1, shopProject "b" 2]
    targets := [⟨shopStore.target, "s3".toList, "b".toList, [], true, 1, ""⟩] }

/-- One scheduling tick. -/
def QueueState.tick (id : String) (now : Instant) (s : QueueState) : QueueState :=
  (s.consider "home" shopStore.target now (BackupPolicy.fallback.dueBefore now)).choose id now
    (s.db.backupCandidates shopStore.target "home" now (BackupPolicy.fallback.dueBefore now))

/-- The oldest queued job is claimed and fails. -/
def QueueState.attemptFails (now : Instant) (s : QueueState) : QueueState :=
  match s.db.claimJob now with
  | (some j, db) =>
    QueueState.complete j .failed "dump" "pg_dump failed" none now BackupPolicy.fallback.interval
      { s with db := db, worker := .working j .preparing }
  | (none, _) => s

theorem QueueRun.tick {s : QueueState} (h : QueueRun "home" s) {id : String}
    (hidle : s.worker = .idle) (hon : s.db.maintenance = false)
    (hknown : (s.db.storageTarget shopStore.target).reconciledAt ≠ 0) :
    QueueRun "home" (s.tick id now) :=
  (h.step (.consider shopStore BackupPolicy.fallback now hidle hon hknown)).step (.choose id rfl)

theorem QueueRun.attemptFails {s : QueueState} (h : QueueRun "home" s) (hidle : s.worker = .idle)
    (hkind : ∀ j ∈ (s.db.claimJob now).1, j.kind = .backup) :
    QueueRun "home" (s.attemptFails now) := by
  unfold QueueState.attemptFails
  split
  · next j db hclaim =>
    refine (h.step (.claim now hidle hclaim ?_)).step (.fail _ _ _ _ rfl)
    exact hkind j (by rw [hclaim]; rfl)
  · exact h

/-- Both shops fail in turn, and then the first comes again. -/
def shopRun : QueueState :=
  ((((shopStart.tick "j1" (ofUnix 200000)).attemptFails (ofUnix 200001)).tick "j2"
    (ofUnix 200002)).attemptFails (ofUnix 200003)).tick "j3" (ofUnix 300000)

theorem scheduler_overtakes_once_shops :
    ∃ s, QueueRun "home" s ∧ s.log = [.enqueued 300000 "a" (some [shopProject "a" 1,
      shopProject "b" 2]), .outcome 200003, .enqueued 200002 "b" (some [shopProject "b" 2]),
      .outcome 200001, .enqueued 200000 "a" (some [shopProject "a" 1, shopProject "b" 2])] ∧
      NoneOvertakenTwice s.log := by
  have hrun : QueueRun "home" shopRun := by
    refine QueueRun.tick (QueueRun.attemptFails (QueueRun.tick (QueueRun.attemptFails
      (QueueRun.tick (.start rfl rfl rfl rfl rfl) rfl rfl ?_) rfl ?_) rfl rfl ?_) rfl ?_) rfl rfl ?_
    all_goals decide +kernel
  have hlog : shopRun.log = [.enqueued 300000 "a" (some [shopProject "a" 1,
      shopProject "b" 2]), .outcome 200003, .enqueued 200002 "b" (some [shopProject "b" 2]),
      .outcome 200001, .enqueued 200000 "a" (some [shopProject "a" 1, shopProject "b" 2])] := by
    decide +kernel
  refine ⟨shopRun, hrun, hlog, scheduler_overtakes_once hrun ?_⟩
  rw [hlog]
  simp [Timed, QueueNote.time]

end Pgfy
