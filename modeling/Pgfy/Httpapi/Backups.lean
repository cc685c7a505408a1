import Pgfy.Storage.Client
import Pgfy.Store.Schedule

/-! # When a backup is due

    The scheduler asks for the projects whose newest backup is at or before a
    bound, `DueBefore`. The page of a project's backups shows a time instead, the
    one at which the next backup is due, from `NextAfter`. Here the two are
    compared, and both with the bound after which a project is reported as late.
-/

namespace Pgfy

open Calendar Storage

/-! ### The page of a project's backups -/

/-- The newest history rows of a project. -/
def Database.projectBackups (projectID : String) (limit : ℕ) (db : Database) : List Backup :=
  ((db.backups.filter (·.projectID = some projectID)).insertionSort
    (fun a b => b.createdAt ≤ a.createdAt)).take limit

structure BackupList where
  backups : List Backup
  jobs : List Job
  storageConfigured : Bool
  nextScheduledAt : ℤ
  newestBackupAt : ℤ
  targetIntervalHours : ℤ
  failures : ℕ
  lastAttemptAt : ℤ
deriving DecidableEq

/-- The page, for the store in use if there is one. The age shown is the
    bucket's answer, not that of the history. -/
def Database.listBackups (installationID : String) (settings : Option Settings) (p : Project)
    (db : Database) : BackupList :=
  let schedule := db.backupSchedule p.id
  let newest := match settings with
    | some s => (db.newestRecoverable s.target installationID p.id).getD 0
    | none => 0
  let next := if settings.isSome ∧ 0 < newest then db.policy.nextAfter newest else 0
  { backups := db.projectBackups p.id 50
    jobs := db.projectJobs p.id 20
    storageConfigured := settings.isSome
    nextScheduledAt := if next < schedule.nextAttemptAt then schedule.nextAttemptAt else next
    newestBackupAt := newest
    targetIntervalHours := db.policy.targetIntervalHours
    failures := schedule.failures
    lastAttemptAt := schedule.lastAttemptAt }

/-! ### Bounds and times in seconds -/

theorem unix_add_ofUnix (t : Instant) (k : ℤ) : unix (t + ofUnix k) = unix t + k := by
  unfold unix ofUnix
  exact Int.add_mul_ediv_right t k (by decide)

theorem lt_ofUnix {t : Instant} {k : ℤ} : t < ofUnix k ↔ unix t < k := by
  unfold unix ofUnix
  exact (Int.ediv_lt_iff_lt_mul (by decide)).symm

/-- The last time, up to a second `u`, that a preferred hour has come round. -/
def lastWindow (preferredHour u : ℤ) : ℤ :=
  let window := u / 86400 * 86400 + preferredHour * 3600
  if u < window then window - 86400 else window

section
variable {policy : BackupPolicy}

theorem BackupPolicy.interval_eq (policy : BackupPolicy) :
    policy.interval = ofUnix (policy.targetIntervalHours * 3600) := by
  unfold interval ofUnix hour
  ring

/-- The bound, in seconds. -/
theorem BackupPolicy.unix_dueBefore (policy : BackupPolicy) (now : Instant) :
    unix (policy.dueBefore now) =
      if policy.hourly then lastWindow policy.preferredHour (unix now) - 1
      else unix now - policy.targetIntervalHours * 3600 := by
  unfold dueBefore
  cases hhourly : policy.hourly with
  | false =>
    have hback : now - policy.interval = now + ofUnix (-(policy.targetIntervalHours * 3600)) := by
      rw [interval_eq, ofUnix, ofUnix]
      ring
    simp only [Bool.not_false, if_true, Bool.false_eq_true, if_false]
    rw [hback, unix_add_ofUnix]
    ring
  | true =>
    have hwindow : ofUnix (unix now / 86400 * 86400) + policy.preferredHour * hour =
        ofUnix (unix now / 86400 * 86400 + policy.preferredHour * 3600) := by
      unfold ofUnix hour
      ring
    have hback : ∀ k, ofUnix k - 24 * hour - second = ofUnix (k - 86400 - 1) := by
      intro k
      unfold ofUnix hour
      ring
    have hbefore : ∀ k, ofUnix k - second = ofUnix (k - 1) := by
      intro k
      unfold ofUnix
      ring
    simp only [Bool.not_true, Bool.false_eq_true, if_false, if_true]
    rw [hwindow, lastWindow]
    simp only [lt_ofUnix]
    split
    · rw [hback, unix_ofUnix]
    · rw [hbefore, unix_ofUnix]

theorem BackupPolicy.nextAfter_eq (policy : BackupPolicy) (newest : ℤ) :
    policy.nextAfter newest =
      if policy.hourly then lastWindow policy.preferredHour newest + 86400
      else newest + policy.targetIntervalHours * 3600 := by
  unfold nextAfter
  cases policy.hourly with
  | false =>
    have hseconds : policy.interval / second = policy.targetIntervalHours * 3600 := by
      rw [interval_eq]
      exact unix_ofUnix _
    simp only [Bool.not_false, if_true, Bool.false_eq_true, if_false, hseconds]
  | true =>
    simp only [Bool.not_true, Bool.false_eq_true, if_false, if_true, lastWindow]
    split <;> omega

/-- What a policy that may be saved says. -/
theorem BackupPolicy.validate_ok (h : policy.validate = .ok ()) :
    policy.targetIntervalHours ∈ [1, 6, 12, 24] ∧
      -1 ≤ policy.preferredHour ∧ policy.preferredHour ≤ 23 := by
  unfold validate at h
  split at h
  · cases h
  next hinterval =>
  split at h
  · cases h
  split at h
  · cases h
  split at h
  · cases h
  next hhour =>
  exact ⟨not_not.mp hinterval, by omega, by omega⟩

theorem BackupPolicy.hourly_iff (policy : BackupPolicy) :
    policy.hourly = true ↔ 0 ≤ policy.preferredHour ∧ policy.targetIntervalHours = 24 := by
  simp [hourly]

/-- The window after one second has come by another exactly if the last window
    up to that other is later. -/
theorem lastWindow_lt_iff {h newest u : ℤ} (h₀ : 0 ≤ h) (h₁ : h ≤ 23) :
    newest ≤ lastWindow h u - 1 ↔ lastWindow h newest + 86400 ≤ u := by
  unfold lastWindow
  dsimp only
  split <;> split <;> omega

/-- A backup is at or before the bound exactly if the next one is due. -/
theorem BackupPolicy.due_iff (hvalid : policy.validate = .ok ()) (newest : ℤ) (now : Instant) :
    newest ≤ unix (policy.dueBefore now) ↔ policy.nextAfter newest ≤ unix now := by
  obtain ⟨-, -, hlast⟩ := validate_ok hvalid
  rw [unix_dueBefore, nextAfter_eq]
  cases hhourly : policy.hourly with
  | false =>
    simp only [Bool.false_eq_true, if_false]
    omega
  | true =>
    simp only [if_true]
    exact lastWindow_lt_iff (policy.hourly_iff.mp hhourly).1 hlast

/-- Two days after the epoch the bound is not before it. -/
theorem BackupPolicy.dueBefore_nonneg (hvalid : policy.validate = .ok ()) {now : Instant}
    (hnow : ofUnix (2 * 86400) ≤ now) : 0 ≤ unix (policy.dueBefore now) := by
  obtain ⟨hinterval, -, hlast⟩ := validate_ok hvalid
  have hseconds : 2 * 86400 ≤ unix now := by
    rw [← unix_ofUnix (2 * 86400)]
    exact unix_mono hnow
  rw [unix_dueBefore]
  cases hhourly : policy.hourly with
  | false =>
    simp only [List.mem_cons, List.not_mem_nil, or_false] at hinterval
    simp only [Bool.false_eq_true, if_false]
    omega
  | true =>
    have hfirst := (policy.hourly_iff.mp hhourly).1
    simp only [if_true, lastWindow]
    split <;> omega

/-- One and a half intervals back is before the bound. -/
theorem BackupPolicy.deadline_le (hvalid : policy.validate = .ok ()) (now : Instant) :
    unix (now + Int.tdiv (-3 * policy.interval) 2) ≤ unix (policy.dueBefore now) + 1 := by
  obtain ⟨hinterval, -, hlast⟩ := validate_ok hvalid
  have hback : Int.tdiv (-3 * policy.interval) 2 =
      ofUnix (-(policy.targetIntervalHours * 5400)) := by
    have hdouble : -3 * policy.interval = ofUnix (-(policy.targetIntervalHours * 5400)) * 2 := by
      rw [interval_eq, ofUnix, ofUnix]
      ring
    rw [hdouble, Int.mul_tdiv_cancel _ (by decide)]
  simp only [List.mem_cons, List.not_mem_nil, or_false] at hinterval
  rw [hback, unix_add_ofUnix, unix_dueBefore]
  cases hhourly : policy.hourly with
  | false =>
    simp only [Bool.false_eq_true, if_false]
    omega
  | true =>
    obtain ⟨hfirst, hday⟩ := policy.hourly_iff.mp hhourly
    simp only [if_true, lastWindow]
    split <;> omega

end

/-! ### Candidates, the time shown, and late projects -/

section
variable {db : Database} {s : Settings} {installationID : String} {p : Project} {now : Instant}

theorem mem_backupCandidates {dueBefore : Instant} (hp : p ∈ db.projects)
    (hready : p.stage = .ready) (hsound : p.failed = false) :
    p ∈ db.backupCandidates s.target installationID now dueBefore ↔
      (db.backupSchedule p.id).nextAttemptAt ≤ unix now ∧
        db.newestBackup s.target installationID p ≤ unix dueBefore := by
  have hnext : db.nextAttempt p.id = (db.backupSchedule p.id).nextAttemptAt := by
    unfold Database.nextAttempt Database.backupSchedule
    cases Table.find BackupSchedule.projectID p.id db.schedules <;> rfl
  unfold Database.backupCandidates
  rw [(List.perm_insertionSort _ _).mem_iff, List.mem_filter, hnext]
  simp [hp, hready, hsound]

/-- For every policy that may be saved and every ready project that has not
    failed: the scheduler finds a backup of it due exactly when the time shown for
    the next one has come, and if it is reported as late and has a backup, that
    backup is at or before the bound. -/
theorem due_when_shown (hpolicy : db.policy.validate = .ok ())
    (hids : (db.projects.map Project.id).Nodup) (hp : p ∈ db.projects)
    (hready : p.stage = .ready) (hsound : p.failed = false) (hnow : ofUnix (2 * 86400) ≤ now) :
    (p ∈ db.backupCandidates s.target installationID now (db.policy.dueBefore now) ↔
      (db.listBackups installationID (some s) p).nextScheduledAt ≤ unix now) ∧
    (p ∈ db.lateProjects s.target installationID db.policy.interval now →
      ∀ newest, db.newestRecoverable s.target installationID p.id = some newest →
        newest ≤ unix (db.policy.dueBefore now)) := by
  have hbound := BackupPolicy.dueBefore_nonneg hpolicy hnow
  have hseconds : 0 ≤ unix now := by
    rw [← unix_ofUnix 0]
    exact unix_mono (le_trans (by decide) hnow)
  constructor
  · rw [mem_backupCandidates hp hready hsound, Database.newestBackup_eq hids hp]
    unfold Database.listBackups
    dsimp only
    generalize (db.newestRecoverable s.target installationID p.id).getD 0 = newest
    have hdue := BackupPolicy.due_iff hpolicy newest now
    by_cases hpositive : 0 < newest
    · simp only [Option.isSome_some, hpositive, and_self, if_true]
      split <;> omega
    · -- without a backup, or with one before the epoch, only the backoff counts
      simp only [Option.isSome_some, hpositive, and_false, if_false]
      split <;> omega
  · intro hlate newest hnewest
    have hcond := (List.mem_filter.mp hlate).2
    rw [hnewest] at hcond
    have hless := of_decide_eq_true (Bool.and_eq_true_iff.mp hcond).2
    have hdeadline := BackupPolicy.deadline_le hpolicy now
    omega

end

/-- A shop with one backup, taken at half past two on 10 January 1970, and a
    policy that prefers three o'clock. -/
def nightlyShop : Database where
  policy := ⟨24, 14, 8, 3⟩
  projects := [{ id := "shop", name := "Shop", dbName := "shop".toList, roleName := "shop".toList
                 idempotencyKey := "shop", stage := .ready, createdAt := 1 }]
  bucketBackups := [("s3|vault|".toList,
    { manifestKey := "backups/shop/19700110T023000Z/manifest.json".toList
      archiveKey := "backups/shop/19700110T023000Z/archive.dump".toList
      dbName := "shop".toList, takenAt := 786600, state := .complete, sizeBytes := 4096
      installationID := "home", projectID := "shop" })]

def nightlyStore : Settings := ⟨"s3".toList, "vault".toList, [], .versioning⟩

/-- Half an hour later the next one is due; it is late after two days. -/
theorem due_when_shown_nightly : ∃ p ∈ nightlyShop.projects,
    p ∈ nightlyShop.backupCandidates nightlyStore.target "home" (ofUnix 788400)
      (nightlyShop.policy.dueBefore (ofUnix 788400)) ∧
    p ∉ nightlyShop.backupCandidates nightlyStore.target "home" (ofUnix 788399)
      (nightlyShop.policy.dueBefore (ofUnix 788399)) ∧
    (786600 : ℤ) ≤ unix (nightlyShop.policy.dueBefore (ofUnix 972000)) := by
  refine ⟨_, List.mem_singleton.mpr rfl, ?_, ?_, ?_⟩
  · refine (due_when_shown (by decide) (by decide) (List.mem_singleton.mpr rfl) rfl rfl
      (by decide)).1.mpr ?_
    decide +kernel
  · refine fun h => absurd ((due_when_shown (by decide) (by decide) (List.mem_singleton.mpr rfl)
      rfl rfl (by decide)).1.mp h) ?_
    decide +kernel
  · have hlate : _ ∈ nightlyShop.lateProjects nightlyStore.target "home"
          nightlyShop.policy.interval (ofUnix 972000) →
        ∀ newest, nightlyShop.newestRecoverable nightlyStore.target "home" _ = some newest →
          newest ≤ unix (nightlyShop.policy.dueBefore (ofUnix 972000)) :=
      (due_when_shown (by decide) (by decide) (List.mem_singleton.mpr rfl) rfl rfl (by decide)).2
    exact hlate (by decide +kernel) _ (by decide +kernel)

end Pgfy
