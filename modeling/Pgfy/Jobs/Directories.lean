import Pgfy.Jobs.Fairness

/-! # The folders of backup jobs

    A job names its folder by the second at which it reads the clock, and
    nothing checks that the folder is free. Jobs that read the clock in different
    seconds have different folders, and then no history row is in the way of
    recording a backup. Two jobs of one database in one second share a folder.
-/

namespace Pgfy

open Calendar Storage

/-- Whatever the settings, a folder's key tells the database and the second. -/
theorem backupKey_inj_settings {s s' : Settings} {d d' : Text} {t t' : Instant}
    (hd : validDatabaseSegment d = true) (ht : FourDigitYear t)
    (hd' : validDatabaseSegment d' = true) (ht' : FourDigitYear t')
    (h : s.backupKey d t = s'.backupKey d' t') : d = d' ∧ unix t = unix t' := by
  have hkey : ∀ (s : Settings) (d : Text) (t : Instant), validDatabaseSegment d = true →
      FourDigitYear t → s.backupKey d t =
        (s.key [Settings.backupsSegment] ++ '/' :: d) ++ '/' :: formatTime t := by
    intro s d t hd ht
    rw [backupKey_eq hd ht, databaseRoot_eq s hd, Settings.backupsRoot]
    simp
  rw [hkey s d t hd ht, hkey s' d' t' hd' ht'] at h
  -- the last segment is the time, the one before it the database
  have htime := congrArg (Text.cutLast '/') h
  rw [Text.cutLast_append _ (segment_formatTime ht).slash,
    Text.cutLast_append _ (segment_formatTime ht').slash] at htime
  obtain ⟨hroot, hformat⟩ := Prod.mk.inj (Option.some.inj htime)
  have hdb := congrArg (Text.cutLast '/') hroot
  rw [Text.cutLast_append _ (segment_of_valid hd).slash,
    Text.cutLast_append _ (segment_of_valid hd').slash] at hdb
  exact ⟨(Prod.mk.inj (Option.some.inj hdb)).2, formatTime_inj ht ht' hformat⟩

/-! ### Folders chosen in a run -/

/-- The folders that jobs have chosen, newest first. -/
def namings (log : List QueueNote) : List (String × Upload) :=
  log.filterMap (fun
    | .named jobID u => some (jobID, u)
    | _ => none)

/-- Folders are for valid database names and years of four digits, and no two
    jobs name a folder for one database in one second. -/
structure Spaced (log : List QueueNote) : Prop where
  valid : ∀ x ∈ namings log, validDatabaseSegment x.2.project.dbName = true ∧
    FourDigitYear x.2.now
  apart : (namings log).Pairwise (fun a b =>
    a.2.project.dbName = b.2.project.dbName → unix a.2.now ≠ unix b.2.now)

theorem Spaced.tail {n : QueueNote} {log : List QueueNote} (h : Spaced (n :: log)) :
    Spaced log := by
  have hsub : (namings log).Sublist (namings (n :: log)) :=
    List.Sublist.filterMap _ (List.sublist_cons_self n log)
  exact ⟨fun x hx => h.valid x (hsub.subset hx), h.apart.sublist hsub⟩

/-- The same folder is the same database and the same second. -/
theorem Upload.directory_inj {u u' : Upload}
    (hd : validDatabaseSegment u.project.dbName = true) (ht : FourDigitYear u.now)
    (hd' : validDatabaseSegment u'.project.dbName = true) (ht' : FourDigitYear u'.now)
    (h : u.directory = u'.directory) :
    u.project.dbName = u'.project.dbName ∧ unix u.now = unix u'.now := by
  have hcut : ∀ t : Instant, unix (ofUnix (unix t)) = unix t := fun t => unix_ofUnix _
  have hinj := backupKey_inj_settings hd ((fourDigitYear_congr (hcut u.now)).mpr ht) hd'
    ((fourDigitYear_congr (hcut u'.now)).mpr ht') h
  rwa [hcut, hcut] at hinj

/-- Of two folders named at different times in a spaced log, one is not the other. -/
theorem Spaced.directory_ne {log : List QueueNote} (h : Spaced log) {x : String × Upload}
    {rest : List (String × Upload)} (hx : namings log = x :: rest) {y : String × Upload}
    (hy : y ∈ rest) : x.2.directory ≠ y.2.directory := by
  intro heq
  have hmem : y ∈ namings log := hx ▸ List.mem_cons_of_mem _ hy
  obtain ⟨hdx, htx⟩ := h.valid x (hx ▸ List.mem_cons_self)
  obtain ⟨hdy, hty⟩ := h.valid y hmem
  obtain ⟨hdb, hsecond⟩ := Upload.directory_inj hdx htx hdy hty heq
  have hapart := h.apart
  rw [hx] at hapart
  exact (List.pairwise_cons.mp hapart).1 y hy hdb hsecond

/-- A key in a folder tells the folder. -/
theorem Upload.directory_of_key {u u' : Upload} {key : Text}
    (h : key = u.archiveKey ∨ key = u.manifestKey)
    (h' : key = u'.archiveKey ∨ key = u'.manifestKey) : u.directory = u'.directory := by
  have hcut : ∀ u : Upload, (key = u.archiveKey ∨ key = u.manifestKey) →
      (Text.cutLast '/' key).map Prod.fst = some u.directory := by
    intro u hkey
    rcases hkey with rfl | rfl
    · rw [Upload.archiveKey, Text.cutLast_append _ (by decide)]
      rfl
    · rw [Upload.manifestKey, Text.cutLast_append _ (by decide)]
      rfl
  exact Option.some.inj ((hcut u h).symm.trans (hcut u' h'))

/-! ### What the history says -/

/-- The folder of a running job that has chosen one. -/
def Progress.upload : Progress → Option Upload
  | .preparing => none
  | .named u => some u
  | .archived u => some u
  | .published u => some u

/-- Every history row is of a folder among these. -/
def Database.HistoryFrom (db : Database) (xs : List (String × Upload)) : Prop :=
  ∀ b ∈ db.backups, ∃ x ∈ xs, b.objectKey = x.2.manifestKey

/-- What holds of folders, uploads and history in every run. -/
structure QueueState.Housed (s : QueueState) : Prop where
  /-- Uploads go to the folder their job has named. -/
  uploads : ∀ jobID u key, .uploaded jobID u key ∈ s.log → (jobID, u) ∈ namings s.log ∧
    (key = u.archiveKey ∨ key = u.manifestKey)
  history : s.db.HistoryFrom (namings s.log)
  /-- The running job's folder is the newest, and not in the history yet. -/
  current : ∀ j progress u, s.worker = .working j progress → progress.upload = some u →
    ∃ rest, namings s.log = (j.id, u) :: rest ∧ s.db.HistoryFrom rest
  /-- In a spaced log no object key was known before. -/
  unknown : Spaced s.log → ∀ jobID, .unrecorded jobID true ∉ s.log

/-- A recorded end adds the history row it is given. -/
theorem Database.backups_completeBackupJob {db db' : Database} {id : String}
    {projectID : Option String} {state : JobState} {stage error : String}
    {backup : Option Backup} {scheduled : Bool} {now : Instant} {interval : ℤ}
    (h : db.completeBackupJob id projectID state stage error backup scheduled now interval =
      .ok db') : db'.backups = db.backups ++ backup.toList := by
  unfold completeBackupJob at h
  dsimp only at h
  split at h
  · cases h
  next db₁ hbackup =>
  have hrows : db₁.backups = db.backups ++ backup.toList := by
    cases backup with
    | none =>
      cases hbackup
      exact (List.append_nil _).symm
    | some b =>
      rw [insertBackup_ok hbackup]
      rfl
  split at h
  · cases h
    exact hrows
  · split at h
    · obtain ⟨schedules, -, rfl⟩ := recordOutcome_ok h
      exact hrows
    · cases h
      exact hrows

namespace QueueState.Housed

variable {s : QueueState}

/-- Changes that name and upload nothing, add no history and leave the worker or
    make it stop. -/
theorem quiet (h : s.Housed) {db : Database} {worker : Worker} {log : List QueueNote}
    (hbackups : ∀ b ∈ db.backups, b ∈ s.db.backups)
    (hworker : ∀ j progress u, worker = .working j progress → progress.upload = some u →
      s.worker = .working j progress)
    (hlog : log = s.log ∨ (∃ t p c, log = .enqueued t p c :: s.log) ∨
      ∃ t, log = .outcome t :: s.log) :
    QueueState.Housed ⟨db, worker, log⟩ := by
  have hnamings : namings log = namings s.log := by
    rcases hlog with rfl | ⟨t, p, c, rfl⟩ | ⟨t, rfl⟩ <;> rfl
  have hold : ∀ n ∈ log, (∀ t p c, n ≠ .enqueued t p c) → (∀ t, n ≠ .outcome t) → n ∈ s.log := by
    intro n hn hne hno
    rcases hlog with rfl | ⟨t, p, c, rfl⟩ | ⟨t, rfl⟩
    · exact hn
    · rcases List.mem_cons.mp hn with heq | hn
      · exact absurd heq (hne t p c)
      · exact hn
    · rcases List.mem_cons.mp hn with heq | hn
      · exact absurd heq (hno t)
      · exact hn
  have hspaced : Spaced log → Spaced s.log := by
    intro hsp
    exact ⟨hnamings ▸ hsp.valid, hnamings ▸ hsp.apart⟩
  refine ⟨?_, ?_, ?_, ?_⟩
  · intro jobID u key hmem
    rw [hnamings]
    exact h.uploads jobID u key (hold _ hmem (fun _ _ _ heq => by cases heq)
      (fun _ heq => by cases heq))
  · intro b hb
    rw [hnamings]
    exact h.history b (hbackups b hb)
  · intro j progress u hw hu
    obtain ⟨rest, hrest, hfrom⟩ := h.current j progress u (hworker j progress u hw hu) hu
    exact ⟨rest, hnamings.trans hrest, fun b hb => hfrom b (hbackups b hb)⟩
  · intro hsp jobID hmem
    exact h.unknown (hspaced hsp) jobID (hold _ hmem (fun _ _ _ heq => by cases heq)
      (fun _ heq => by cases heq))

/-- A job names its folder. -/
theorem name (h : s.Housed) (j : Job) (u : Upload) : (s.name j u).Housed := by
  have hnamings : namings (s.name j u).log = (j.id, u) :: namings s.log := rfl
  refine ⟨?_, ?_, ?_, ?_⟩
  · intro jobID u' key hmem
    rcases List.mem_cons.mp hmem with heq | hmem
    · cases heq
    · obtain ⟨hnamed, hkey⟩ := h.uploads jobID u' key hmem
      exact ⟨hnamings ▸ List.mem_cons_of_mem _ hnamed, hkey⟩
  · intro b hb
    obtain ⟨x, hx, hkey⟩ := h.history b hb
    exact ⟨x, hnamings ▸ List.mem_cons_of_mem _ hx, hkey⟩
  · intro j' progress u' hw hu
    cases hw
    cases hu
    exact ⟨namings s.log, rfl, h.history⟩
  · intro hsp jobID hmem
    rcases List.mem_cons.mp hmem with heq | hmem
    · cases heq
    · exact h.unknown hsp.tail jobID hmem

/-- A job uploads to its folder. -/
theorem upload (h : s.Housed) {j : Job} {progress progress' : Progress} {u : Upload} {key : Text}
    (hworker : s.worker = .working j progress) (hu : progress.upload = some u)
    (hu' : progress'.upload = some u) (hkey : key = u.archiveKey ∨ key = u.manifestKey) :
    (s.upload j u progress' key).Housed := by
  obtain ⟨rest, hrest, hfrom⟩ := h.current j progress u hworker hu
  refine ⟨?_, h.history, ?_, ?_⟩
  · intro jobID u₁ key₁ hmem
    rcases List.mem_cons.mp hmem with heq | hmem
    · cases heq
      refine ⟨?_, hkey⟩
      show (j.id, u) ∈ namings s.log
      rw [hrest]
      exact List.mem_cons_self
    · exact h.uploads jobID u₁ key₁ hmem
  · intro j' progress₁ u₁ hw hu₁
    cases hw
    cases hu'.symm.trans hu₁
    exact ⟨rest, hrest, hfrom⟩
  · intro hsp jobID hmem
    rcases List.mem_cons.mp hmem with heq | hmem
    · cases heq
    · exact h.unknown hsp.tail jobID hmem

/-- A job ends, with a history row of its folder or none. -/
theorem complete (h : s.Housed) {j : Job} {state : JobState} {stage error : String}
    {backup : Option Backup} {now : Instant} {interval : ℤ}
    (hrow : ∀ b ∈ backup, ∃ progress u, s.worker = .working j progress ∧
      progress.upload = some u ∧ b.objectKey = u.manifestKey) :
    (s.complete j state stage error backup now interval).Housed := by
  rcases s.complete_cases j state stage error backup now interval with ⟨db, hok, heq⟩ | heq
  · rw [heq]
    have hrows := Database.backups_completeBackupJob hok
    refine ⟨?_, ?_, (fun _ _ _ hw => by cases hw), ?_⟩
    · intro jobID u key hmem
      rcases List.mem_cons.mp hmem with hnote | hmem
      · cases hnote
      · exact h.uploads jobID u key hmem
    · intro b hb
      have hmem : b ∈ s.db.backups ++ backup.toList := hrows ▸ hb
      rcases List.mem_append.mp hmem with hb | hb
      · exact h.history b hb
      · obtain ⟨progress, u, hw, hu, hkey⟩ := hrow b (Option.mem_toList.mp hb)
        obtain ⟨rest, hrest, -⟩ := h.current j progress u hw hu
        refine ⟨(j.id, u), ?_, hkey⟩
        show (j.id, u) ∈ namings s.log
        rw [hrest]
        exact List.mem_cons_self
    · intro hsp jobID hmem
      rcases List.mem_cons.mp hmem with hnote | hmem
      · cases hnote
      · exact h.unknown hsp.tail jobID hmem
  · rw [heq]
    refine ⟨?_, h.history, (fun _ _ _ hw => by cases hw), ?_⟩
    · intro jobID u key hmem
      rcases List.mem_cons.mp hmem with hnote | hmem
      · cases hnote
      · exact h.uploads jobID u key hmem
    · intro hsp jobID hmem
      rcases List.mem_cons.mp hmem with hnote | hmem
      · obtain ⟨-, hknown⟩ := QueueNote.unrecorded.inj hnote
        -- a row with the key would be of an older folder with this folder's name
        cases backup with
        | none => simp at hknown
        | some b =>
          obtain ⟨progress, u, hw, hu, hkey⟩ := hrow b rfl
          obtain ⟨rest, hrest, hfrom⟩ := h.current j progress u hw hu
          obtain ⟨o, ho, hsame⟩ := List.any_eq_true.mp hknown.symm
          obtain ⟨x, hx, hox⟩ := hfrom o ho
          have hmanifest : u.manifestKey = x.2.manifestKey :=
            hkey.symm.trans ((of_decide_eq_true hsame).symm.trans hox)
          exact hsp.tail.directory_ne hrest hx
            (Upload.directory_of_key (Or.inr rfl) (Or.inr hmanifest))
      · exact h.unknown hsp.tail jobID hmem

theorem enqueue (h : s.Housed) (id projectID : String) (candidates : Option (List Project))
    (now : Instant) : (s.enqueue id projectID candidates now).Housed := by
  rcases s.enqueue_cases id projectID candidates now with heq | ⟨db, hok, heq⟩
  · rw [heq]
    exact h
  · rw [heq]
    obtain ⟨-, -, -, -, schedules, -, rfl⟩ := Database.enqueue_ok hok
    exact h.quiet (fun b hb => hb) (fun _ _ _ hw _ => hw) (Or.inr (Or.inl ⟨_, _, _, rfl⟩))

theorem restart (h : s.Housed) (now : Instant) (interval : ℤ) :
    (s.restart now interval).Housed := by
  have hidle : ∀ j progress u, Worker.idle = .working j progress →
      progress.upload = some u → s.worker = .working j progress :=
    fun _ _ _ hw _ => by cases hw
  rcases s.restart_cases now interval with ⟨db, hok, heq⟩ | heq
  · rw [heq]
    obtain ⟨events, schedules, -, -, rfl⟩ := Database.interruptRunningJobs_ok hok
    refine h.quiet (fun b hb => hb) hidle ?_
    cases hbusy : s.busy with
    | true => exact Or.inr (Or.inr ⟨unix now, rfl⟩)
    | false => exact Or.inl rfl
  · rw [heq]
    exact h.quiet (fun b hb => hb) hidle (Or.inl rfl)

theorem step {installationID : String} {s' : QueueState} (h : s.Housed)
    (step : QueueStep installationID s s') : s'.Housed := by
  cases step with
  | consider settings policy now _ _ _ =>
    exact h.quiet (fun b hb => hb) (fun _ _ _ hw _ => by cases hw) (Or.inl rfl)
  | @choose id now candidates at_ =>
    have hidle : QueueState.Housed { s with worker := .idle } :=
      h.quiet (fun b hb => hb) (fun _ _ _ hw _ => by cases hw) (Or.inl rfl)
    cases candidates with
    | nil => exact hidle
    | cons p rest => exact hidle.enqueue id p.id _ now
  | request id projectID now => exact h.enqueue id projectID none now
  | @claim now j db _ claimed _ =>
    obtain ⟨_, -, -, -, -, -, rfl⟩ := Database.claimJob_some claimed
    refine h.quiet (fun b hb => hb) (fun j' progress u hw hu => ?_) (Or.inl rfl)
    cases hw
    cases hu
  | name settings p now _ _ _ _ _ => exact h.name _ _
  | archive at_ => exact h.upload at_ rfl rfl (Or.inl rfl)
  | publish at_ => exact h.upload at_ rfl rfl (Or.inr rfl)
  | @succeed id sizeBytes now interval j u at_ =>
    refine h.complete (fun b hb => ?_)
    cases hb
    exact ⟨.published u, u, at_, rfl, rfl⟩
  | fail stage error now interval _ =>
    exact h.complete (fun b hb => (Option.not_mem_none b hb).elim)
  | restart now interval => exact h.restart now interval
  | aside change => exact h.quiet change.backups (fun _ _ _ hw _ => hw) (Or.inl rfl)

end QueueState.Housed

theorem QueueRun.housed {installationID : String} {s : QueueState}
    (h : QueueRun installationID s) : s.Housed := by
  induction h with
  | start _ _ backups idle log =>
    refine ⟨?_, ?_, ?_, ?_⟩
    · intro jobID u key hmem
      rw [log] at hmem
      exact absurd hmem List.not_mem_nil
    · intro b hb
      rw [backups] at hb
      exact absurd hb List.not_mem_nil
    · intro j progress u hw
      rw [idle] at hw
      cases hw
    · intro _ jobID hmem
      rw [log] at hmem
      exact absurd hmem List.not_mem_nil
  | step _ step ih => exact ih.step step

/-- In every run in which no two jobs name a folder for one database in one
    second, different jobs upload to different folders of a database, and no end
    of a backup fails because its object key is known. -/
theorem backups_kept_apart {installationID : String} {s : QueueState}
    (h : QueueRun installationID s) (hspaced : Spaced s.log) :
    (∀ j₁ u₁ key₁ j₂ u₂ key₂, .uploaded j₁ u₁ key₁ ∈ s.log → .uploaded j₂ u₂ key₂ ∈ s.log →
      j₁ ≠ j₂ → u₁.project.dbName = u₂.project.dbName →
        u₁.directory ≠ u₂.directory ∧ key₁ ≠ key₂) ∧
    ∀ jobID, .unrecorded jobID true ∉ s.log := by
  have hhoused := h.housed
  refine ⟨?_, hhoused.unknown hspaced⟩
  intro j₁ u₁ key₁ j₂ u₂ key₂ h₁ h₂ hne hdb
  obtain ⟨hn₁, hkey₁⟩ := hhoused.uploads j₁ u₁ key₁ h₁
  obtain ⟨hn₂, hkey₂⟩ := hhoused.uploads j₂ u₂ key₂ h₂
  have hdir : u₁.directory ≠ u₂.directory := by
    intro heq
    obtain ⟨hd₁, ht₁⟩ := hspaced.valid _ hn₁
    obtain ⟨hd₂, ht₂⟩ := hspaced.valid _ hn₂
    obtain ⟨-, hsecond⟩ := Upload.directory_inj hd₁ ht₁ hd₂ ht₂ heq
    have hsymm : Std.Symm (fun a b : String × Upload =>
        a.2.project.dbName = b.2.project.dbName → unix a.2.now ≠ unix b.2.now) :=
      ⟨fun a b hab hname => (hab hname.symm).symm⟩
    exact hspaced.apart.forall hn₁ hn₂ (fun hpair => hne (Prod.mk.inj hpair).1) hdb hsecond
  exact ⟨hdir, fun heq => hdir (Upload.directory_of_key hkey₁ (heq ▸ hkey₂))⟩

/-! ### Two manual backups of one shop -/

/-- A manual backup of the first shop that runs through at once, the clock
    reading `now` throughout. -/
def QueueState.backUp (jobID backupID : String) (now : Instant) (s : QueueState) : QueueState :=
  let s := s.enqueue jobID "a" none now
  match s.db.claimJob now with
  | (some j, db) =>
    let u : Upload := ⟨shopStore, shopProject "a" 1, now⟩
    let s : QueueState := { s with db := db, worker := .working j .preparing }
    let s := (s.name j u).upload j u (.archived u) u.archiveKey
    let s := s.upload j u (.published u) u.manifestKey
    s.complete j .succeeded "done" "" (some (QueueState.record backupID 100 j u)) now
      BackupPolicy.fallback.interval
  | (none, _) => s

theorem QueueRun.backUp {s : QueueState} (h : QueueRun "home" s) {jobID backupID : String}
    {now : Instant} (hidle : (s.enqueue jobID "a" none now).worker = .idle)
    (hjob : ∀ j ∈ ((s.enqueue jobID "a" none now).db.claimJob now).1,
      j.kind = .backup ∧ j.projectID = some "a")
    (hproject : shopProject "a" 1 ∈ ((s.enqueue jobID "a" none now).db.claimJob now).2.projects) :
    QueueRun "home" (s.backUp jobID backupID now) := by
  have hrequest := h.step (.request jobID "a" now)
  unfold QueueState.backUp
  dsimp only
  split
  · next j db hclaim =>
    rw [hclaim] at hjob hproject
    obtain ⟨hkind, hown⟩ := hjob j rfl
    have hclaimed := hrequest.step (.claim now hidle hclaim hkind)
    have hnamed := hclaimed.step (.name shopStore (shopProject "a" 1) now rfl hproject hown rfl rfl)
    exact ((hnamed.step (.archive rfl)).step (.publish rfl)).step
      (.succeed backupID 100 now BackupPolicy.fallback.interval rfl)
  · exact hrequest

/-- The second of a clock reading in the log. -/
def QueueNote.second : QueueNote → Option ℤ
  | .enqueued t _ _ => some t
  | .outcome t => some t
  | .named _ u => some (unix u.now)
  | _ => none

/-- The first second of 2026. -/
def newYear : Instant := ofUnix 1767225600

/-- Two backups a second apart. -/
theorem backups_kept_apart_second :
    let s := (shopStart.backUp "j1" "k1" newYear).backUp "j2" "k2" (newYear + second)
    s.db.backups.map Backup.id = ["k1", "k2"] ∧ ∀ jobID, .unrecorded jobID true ∉ s.log := by
  intro s
  have hrun : QueueRun "home" s := by
    refine QueueRun.backUp (QueueRun.backUp (.start rfl rfl rfl rfl rfl) ?_ ?_ ?_) ?_ ?_ ?_
    all_goals decide +kernel
  refine ⟨by decide +kernel, (backups_kept_apart hrun ?_).2⟩
  constructor
  all_goals decide +kernel

/-- Two backups in one second write to one folder, and the end of the second is
    lost: its job stays running. -/
theorem backups_share_folder :
    ∃ s, QueueRun "home" s ∧ (s.log.filterMap QueueNote.second).Pairwise (· ≥ ·) ∧
      (∃ u₁ u₂ key, .uploaded "j1" u₁ key ∈ s.log ∧ .uploaded "j2" u₂ key ∈ s.log ∧
        u₁.project.dbName = u₂.project.dbName ∧ u₁.now < u₂.now ∧
        u₁.directory = u₂.directory) ∧
      .unrecorded "j2" true ∈ s.log ∧ ∃ j ∈ s.db.jobs, j.id = "j2" ∧ j.state = .running := by
  refine ⟨(shopStart.backUp "j1" "k1" newYear).backUp "j2" "k2" (newYear + 900000000), ?_, ?_,
    ⟨⟨shopStore, shopProject "a" 1, newYear⟩,
      ⟨shopStore, shopProject "a" 1, newYear + 900000000⟩,
      Upload.manifestKey ⟨shopStore, shopProject "a" 1, newYear⟩, ?_⟩, ?_, ?_⟩
  · refine QueueRun.backUp (QueueRun.backUp (.start rfl rfl rfl rfl rfl) ?_ ?_ ?_) ?_ ?_ ?_
    all_goals decide +kernel
  all_goals decide +kernel

end Pgfy
