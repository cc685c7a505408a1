import Pgfy.Store.Schema

/-! # Statements on the reconciled view and the backup history

    Each definition is one statement or transaction of the store, as a function
    on the database. Rows of the reconciled view are addressed by store and
    manifest key.
-/

namespace Pgfy

open Calendar Storage

variable {rows : List (Text × BucketBackup)} {backups : List BucketBackup} {r : Text × BucketBackup}
  {target : Text} {b : BucketBackup}

/-! ### The order of rows -/

/-- Newest first; rows of one time by manifest key, the greatest first. -/
def BucketBackup.Before (a b : BucketBackup) : Prop :=
  b.takenAt < a.takenAt ∨ (a.takenAt = b.takenAt ∧ b.manifestKey ≤ a.manifestKey)

instance (a b : BucketBackup) : Decidable (a.Before b) := by
  unfold BucketBackup.Before; infer_instance

/-- `ORDER BY taken_at DESC, manifest_key DESC`. -/
def newestFirst (rows : List BucketBackup) : List BucketBackup :=
  rows.insertionSort BucketBackup.Before

/-- What rows are ordered by, time first: greater is newer. -/
def Stamp := ℤ ×ₗ Text

instance : LinearOrder Stamp := inferInstanceAs (LinearOrder (ℤ ×ₗ Text))

def Stamp.time (s : Stamp) : ℤ := (ofLex (α := ℤ × Text) s).1

def Stamp.key (s : Stamp) : Text := (ofLex (α := ℤ × Text) s).2

theorem Stamp.time_mono : Monotone Stamp.time := fun a b h =>
  Prod.Lex.monotone_fst (show ℤ ×ₗ Text from a) b h

def BucketBackup.stamp (b : BucketBackup) : Stamp := toLex (b.takenAt, b.manifestKey)

@[simp] theorem BucketBackup.stamp_time (b : BucketBackup) : b.stamp.time = b.takenAt := rfl

@[simp] theorem BucketBackup.stamp_key (b : BucketBackup) : b.stamp.key = b.manifestKey := rfl

theorem BucketBackup.before_iff (a b : BucketBackup) : a.Before b ↔ b.stamp ≤ a.stamp := by
  refine Iff.trans ?_ (Prod.Lex.toLex_le_toLex (x := (b.takenAt, b.manifestKey))
    (y := (a.takenAt, a.manifestKey))).symm
  exact or_congr_right (and_congr_left' eq_comm)

instance : Std.Total BucketBackup.Before :=
  ⟨fun a b => by simp only [BucketBackup.before_iff]; exact le_total _ _⟩

instance : IsTrans BucketBackup BucketBackup.Before :=
  ⟨fun a b c => by simp only [BucketBackup.before_iff]; exact fun h h' => h'.trans h⟩

theorem mem_newestFirst {rows : List BucketBackup} : b ∈ newestFirst rows ↔ b ∈ rows :=
  (List.perm_insertionSort _ _).mem_iff

/-- Rows with distinct keys come out strictly ordered. -/
theorem newestFirst_strict {rows : List BucketBackup}
    (hn : (rows.map BucketBackup.manifestKey).Nodup) :
    (newestFirst rows).Pairwise (fun a b => b.stamp < a.stamp) := by
  have hsorted := List.pairwise_insertionSort BucketBackup.Before rows
  have hkeys : ((newestFirst rows).map BucketBackup.manifestKey).Nodup :=
    ((List.perm_insertionSort _ _).map _).nodup_iff.mpr hn
  refine (hsorted.and (List.pairwise_map.mp hkeys)).imp (fun {a b} h => ?_)
  refine lt_of_le_of_ne ((BucketBackup.before_iff a b).mp h.1) (fun heq => h.2 ?_)
  exact (congrArg Stamp.key heq).symm

/-! ### The policy -/

/-- Whether a policy may be saved. -/
def BackupPolicy.validate (p : BackupPolicy) : Except Err Unit :=
  if p.targetIntervalHours ∉ [1, 6, 12, 24] then
    .error (.message "the backup target interval must be 1, 6, 12 or 24 hours")
  else if p.retentionDaily < 1 ∨ 90 < p.retentionDaily then
    .error (.message "daily retention must be between 1 and 90 backups")
  else if p.retentionWeekly < 0 ∨ 52 < p.retentionWeekly then
    .error (.message "weekly retention must be between 0 and 52 backups")
  else if p.preferredHour < -1 ∨ 23 < p.preferredHour then
    .error (.message "the preferred hour must be between 0 and 23, or any time")
  else .ok ()

/-- The policy in force when the recorded one cannot be read. -/
def BackupPolicy.fallback : BackupPolicy := ⟨24, 14, 8, -1⟩

/-- The backup target as a duration. -/
def BackupPolicy.interval (p : BackupPolicy) : ℤ := p.targetIntervalHours * hour

/-- Whether the preferred hour applies: only to daily backups. -/
def BackupPolicy.hourly (p : BackupPolicy) : Bool :=
  0 ≤ p.preferredHour && p.targetIntervalHours = 24

/-- A project is due when its newest backup was taken at or before this time. -/
def BackupPolicy.dueBefore (p : BackupPolicy) (now : Instant) : Instant :=
  if !p.hourly then now - p.interval
  else
    let window := ofUnix (unix now / 86400 * 86400) + p.preferredHour * hour
    (if now < window then window - 24 * hour else window) - second

/-- When a project whose newest backup was taken at `newest` is due again. -/
def BackupPolicy.nextAfter (p : BackupPolicy) (newest : ℤ) : ℤ :=
  if !p.hourly then newest + p.interval / second
  else
    let next := newest / 86400 * 86400 + p.preferredHour * 3600
    if newest < next then next else next + 86400

/-! ### Storage targets -/

namespace Database

/-- Records the store in use now and makes it the only active one. -/
def activateStorageTarget (t : StorageTarget) (db : Database) : Database :=
  let targets := Table.upsert StorageTarget.target t.target (fun old =>
    { t with
      active := true
      reconciledAt := (old.map (·.reconciledAt)).getD 0
      lastError := (old.map (·.lastError)).getD "" }) db.targets
  { db with
    targets := targets.map (fun o =>
      if o.target ≠ t.target then { o with active := false } else o) }

/-- The row of a target, or a blank one. -/
def storageTarget (target : Text) (db : Database) : StorageTarget :=
  (Table.find StorageTarget.target target db.targets).getD
    { target := target, endpoint := [], bucket := [], folder := [] }

/-- First statement of `SetTargetReconciled`: a row for the target exists. -/
def ensureTarget (target : Text) (db : Database) : Database :=
  { db with
    targets := Table.upsert StorageTarget.target target
      (fun old => old.getD { target := target, endpoint := [], bucket := [], folder := [] })
      db.targets }

/-- Second statement of `SetTargetReconciled`: the outcome of a pass. -/
def recordReconciled (target : Text) (at_ : Instant) (lastError : String) (db : Database) :
    Database :=
  { db with
    targets := Table.modify StorageTarget.target target (fun t =>
      if lastError ≠ "" then { t with lastError := lastError }
      else { t with reconciledAt := unix at_, lastError := "" }) db.targets }

/-! ### The reconciled view -/

/-- What addresses a row of the reconciled view. -/
def rowKey (r : Text × BucketBackup) : Text × Text := (r.1, r.2.manifestKey)

/-- Every recorded entry of one folder, newest first. -/
def prefixBackups (target dbName : Text) (db : Database) : List BucketBackup :=
  newestFirst ((db.bucketBackups.filter (fun r => r.1 = target ∧ r.2.dbName = dbName)).map (·.2))

theorem mem_prefixBackups {target dbName : Text} {db : Database} :
    b ∈ db.prefixBackups target dbName ↔ (target, b) ∈ db.bucketBackups ∧ b.dbName = dbName := by
  rw [prefixBackups, mem_newestFirst, List.mem_map]
  constructor
  · intro ⟨r, hr, hb⟩
    obtain ⟨hmem, hfolder⟩ := List.mem_filter.mp hr
    obtain ⟨htarget, hdb⟩ := of_decide_eq_true hfolder
    subst hb
    exact ⟨htarget ▸ hmem, hdb⟩
  · intro ⟨hmem, hdb⟩
    exact ⟨(target, b), List.mem_filter.mpr ⟨hmem, by simp [hdb]⟩, rfl⟩

/-- The upsert of one listed entry. Deletion intent is carried forward only for
    entries the listing still saw as archive-only. -/
def recordEntry (target : Text) (rows : List (Text × BucketBackup)) (b : BucketBackup) :
    List (Text × BucketBackup) :=
  Table.upsert rowKey (target, b.manifestKey) (fun old => (target,
    { b with
      deleteStartedAt :=
        match old with
        | some r => if b.state = .archiveOnly then r.2.deleteStartedAt else 0
        | none => 0 })) rows

/-- The rows of the view once a folder is replaced by those of a listing: what
    the listing does not have goes, the rest is written over. -/
def replaceRows (target dbName : Text) (backups : List BucketBackup)
    (rows : List (Text × BucketBackup)) : List (Text × BucketBackup) :=
  let keys := backups.map (·.manifestKey)
  let gone := ((rows.filter (fun r => r.1 = target ∧ r.2.dbName = dbName)).map
    (·.2.manifestKey)).filter (· ∉ keys)
  backups.foldl (recordEntry target)
    (rows.filter (fun r => ¬ (r.1 = target ∧ r.2.manifestKey ∈ gone)))

/-- The folder rows once one is replaced. -/
def replaceState (target : Text) (state : PrefixState) (now : Instant)
    (prefixes : List (Text × PrefixState)) : List (Text × PrefixState) :=
  Table.upsert (fun r : Text × PrefixState => (r.1, r.2.dbName)) (target, state.dbName)
    (fun _ => (target, { state with reconciledAt := unix now })) prefixes

/-- Stores one folder exactly as a complete listing found it. -/
def replacePrefix (target : Text) (state : PrefixState) (backups : List BucketBackup)
    (now : Instant) (db : Database) : Database :=
  { db with
    bucketBackups := replaceRows target state.dbName backups db.bucketBackups
    prefixes := replaceState target state now db.prefixes }

/-- A row written for a listed entry: the entry as listed, with a delete marker
    only if the entry is archive-only and a row under its key had that marker. -/
def RecordedFrom (target : Text) (rows : List (Text × BucketBackup)) (b : BucketBackup)
    (r : Text × BucketBackup) : Prop :=
  ∃ d, r = (target, { b with deleteStartedAt := d }) ∧
    (d ≠ 0 → b.state = .archiveOnly ∧
      ∃ old ∈ rows, rowKey old = (target, b.manifestKey) ∧ old.2.deleteStartedAt = d)

theorem mem_recordEntry (h : r ∈ recordEntry target rows b) :
    RecordedFrom target rows b r ∨ (r ∈ rows ∧ rowKey r ≠ (target, b.manifestKey)) := by
  rcases Table.mem_upsert.mp h with hr | hr
  · left
    cases hfind : Table.find rowKey (target, b.manifestKey) rows with
    | none =>
      rw [hfind] at hr
      exact ⟨0, hr, fun hd => absurd rfl hd⟩
    | some old =>
      rw [hfind] at hr
      obtain ⟨hmem, hkey⟩ := Table.find_eq_some hfind
      by_cases hstate : b.state = .archiveOnly
      · refine ⟨old.2.deleteStartedAt, ?_, fun _ => ⟨hstate, old, hmem, hkey, rfl⟩⟩
        rw [hr]
        simp [hstate]
      · refine ⟨0, ?_, fun hd => absurd rfl hd⟩
        rw [hr]
        simp [hstate]
  · exact Or.inr hr

/-- After a listing has been written, a row is of that listing or was there
    before under another key. -/
theorem mem_foldl_recordEntry (h : r ∈ backups.foldl (recordEntry target) rows) :
    (∃ b ∈ backups, RecordedFrom target rows b r) ∨
      (r ∈ rows ∧ ∀ b ∈ backups, rowKey r ≠ (target, b.manifestKey)) := by
  induction backups generalizing rows with
  | nil => exact Or.inr ⟨h, fun b hb => absurd hb List.not_mem_nil⟩
  | cons b rest ih =>
    rcases ih h with ⟨b', hb', d, hr, hd⟩ | ⟨hr, hne⟩
    · -- a marker found in the rows just written comes from the rows before them
      refine Or.inl ⟨b', List.mem_cons_of_mem b hb', d, hr, fun hd0 => ?_⟩
      obtain ⟨hstate, old, hold, hkey, hmark⟩ := hd hd0
      refine ⟨hstate, ?_⟩
      rcases mem_recordEntry hold with ⟨d', hold', hd'⟩ | ⟨hold', -⟩
      · rw [hold'] at hmark hkey
        obtain ⟨-, old', hmem', hkey', hmark'⟩ := hd' (by rw [show d' = d from hmark]; exact hd0)
        exact ⟨old', hmem', hkey'.trans hkey, hmark'.trans hmark⟩
      · exact ⟨old, hold', hkey, hmark⟩
    · rcases mem_recordEntry hr with hrec | ⟨hr', hkey⟩
      · exact Or.inl ⟨b, List.mem_cons_self, hrec⟩
      · refine Or.inr ⟨hr', fun b' hb' => ?_⟩
        rcases List.mem_cons.mp hb' with rfl | hb'
        · exact hkey
        · exact hne b' hb'

/-- A row of the view after a folder was replaced is of the listing, or was
    there before, under another key and outside that folder. -/
theorem mem_replaceRows {target dbName : Text} (h : r ∈ replaceRows target dbName backups rows) :
    (∃ b ∈ backups, RecordedFrom target rows b r) ∨
      (r ∈ rows ∧ ¬ (r.1 = target ∧ r.2.dbName = dbName) ∧
        ∀ b ∈ backups, rowKey r ≠ (target, b.manifestKey)) := by
  rcases mem_foldl_recordEntry h with ⟨b, hb, d, hr, hd⟩ | ⟨hr, hne⟩
  · refine Or.inl ⟨b, hb, d, hr, fun hd0 => ?_⟩
    obtain ⟨hstate, old, hold, hrest⟩ := hd hd0
    exact ⟨hstate, old, (List.mem_filter.mp hold).1, hrest⟩
  · obtain ⟨hmem, hgone⟩ := List.mem_filter.mp hr
    refine Or.inr ⟨hmem, fun ⟨htarget, hdb⟩ => ?_, hne⟩
    -- a row of the folder that the listing does not have is gone
    apply of_decide_eq_true hgone
    refine ⟨htarget, List.mem_filter.mpr ⟨List.mem_map.mpr ⟨r, ?_, rfl⟩, ?_⟩⟩
    · exact List.mem_filter.mpr ⟨hmem, by simp [htarget, hdb]⟩
    · refine decide_eq_true (fun hkey => ?_)
      obtain ⟨b, hb, hbkey⟩ := List.mem_map.mp hkey
      exact hne b hb (by rw [rowKey, htarget, hbkey])

theorem mem_recordEntry_of_ne (hr : r ∈ rows) (hne : rowKey r ≠ (target, b.manifestKey)) :
    r ∈ recordEntry target rows b :=
  Table.mem_upsert.mpr (Or.inr ⟨hr, hne⟩)

theorem mem_foldl_recordEntry_of_ne (hr : r ∈ rows)
    (hne : ∀ b ∈ backups, rowKey r ≠ (target, b.manifestKey)) :
    r ∈ backups.foldl (recordEntry target) rows := by
  induction backups generalizing rows with
  | nil => exact hr
  | cons b rest ih =>
    apply ih (mem_recordEntry_of_ne hr (hne b List.mem_cons_self))
    intro b' hb'
    exact hne b' (List.mem_cons_of_mem b hb')

/-- The marker the row of a listed entry gets. -/
def carriedMarker (target : Text) (rows : List (Text × BucketBackup)) (b : BucketBackup) : ℤ :=
  match Table.find rowKey (target, b.manifestKey) rows with
  | some r => if b.state = .archiveOnly then r.2.deleteStartedAt else 0
  | none => 0

/-- Each entry of a listing has its row once the listing is written. -/
theorem mem_foldl_recordEntry_of_mem (hn : (backups.map BucketBackup.manifestKey).Nodup)
    (hb : b ∈ backups) : (target, { b with deleteStartedAt := carriedMarker target rows b }) ∈
      backups.foldl (recordEntry target) rows := by
  induction backups generalizing rows with
  | nil => cases hb
  | cons b' rest ih =>
    obtain ⟨hnot, hrest⟩ := List.nodup_cons.mp hn
    rcases List.mem_cons.mp hb with rfl | hb
    · -- its own upsert writes the row, and the others have other keys
      rw [List.foldl_cons]
      have hrow : (target, { b with deleteStartedAt := carriedMarker target rows b }) ∈
          recordEntry target rows b := Table.mem_upsert.mpr (Or.inl rfl)
      apply mem_foldl_recordEntry_of_ne hrow
      · intro b' hb' hkey
        exact hnot (List.mem_map.mpr ⟨b', hb', ((Prod.mk.inj hkey).2).symm⟩)
    · have hne : b.manifestKey ≠ b'.manifestKey := by
        intro hkey
        exact hnot (List.mem_map.mpr ⟨b, hb, hkey⟩)
      have hfind : carriedMarker target (recordEntry target rows b') b =
          carriedMarker target rows b := by
        unfold carriedMarker recordEntry
        rw [Table.find_upsert_of_ne rfl (fun hkey => hne (Prod.mk.inj hkey).2)]
      rw [List.foldl_cons, ← hfind]
      exact ih hrest hb

theorem mem_replaceRows_of_mem {target dbName : Text}
    (hn : (backups.map BucketBackup.manifestKey).Nodup) (hb : b ∈ backups) :
    ∃ d, (target, { b with deleteStartedAt := d }) ∈ replaceRows target dbName backups rows :=
  ⟨_, mem_foldl_recordEntry_of_mem hn hb⟩

/-- Rows of other stores, and rows of other folders under other keys, stay. -/
theorem mem_replaceRows_of_other {target dbName : Text} (hr : r ∈ rows)
    (hkeys : ∀ b ∈ backups, rowKey r ≠ (target, b.manifestKey))
    (hfolder : ∀ r' ∈ rows, r'.2.dbName = dbName → rowKey r' = rowKey r → r'.1 ≠ target) :
    r ∈ replaceRows target dbName backups rows := by
  apply mem_foldl_recordEntry_of_ne _ hkeys
  apply List.mem_filter.mpr ⟨hr, _⟩
  apply decide_eq_true
  rintro ⟨htarget, hgone⟩
  obtain ⟨r', hr', hkey⟩ := List.mem_map.mp (List.mem_filter.mp hgone).1
  obtain ⟨hmem, hcond⟩ := List.mem_filter.mp hr'
  obtain ⟨htarget', hdb⟩ := of_decide_eq_true hcond
  exact hfolder r' hmem hdb (Prod.ext (htarget'.trans htarget.symm) hkey) htarget'

theorem nodup_foldl_recordEntry (hn : (rows.map rowKey).Nodup) :
    ((backups.foldl (recordEntry target) rows).map rowKey).Nodup := by
  induction backups generalizing rows with
  | nil => exact hn
  | cons b rest ih => exact ih (Table.nodup_upsert rfl hn)

theorem nodup_replaceRows {target dbName : Text} (hn : (rows.map rowKey).Nodup) :
    ((replaceRows target dbName backups rows).map rowKey).Nodup :=
  nodup_foldl_recordEntry (hn.sublist (List.Sublist.map rowKey List.filter_sublist))

/-- The folders of a store that have a row. -/
def prefixNames (target : Text) (db : Database) : List Text :=
  (db.prefixes.filter (fun r => r.1 = target)).map (·.2.dbName)

theorem mem_prefixNames {db : Database} {dbName : Text} :
    dbName ∈ db.prefixNames target ↔ ∃ r ∈ db.prefixes, r.1 = target ∧ r.2.dbName = dbName := by
  simp [prefixNames]

/-- Changes the row of one backup. -/
def modifyBucketBackup (target key : Text) (f : BucketBackup → BucketBackup) (db : Database) :
    Database :=
  { db with
    bucketBackups := Table.modify rowKey (target, key) (fun r => (r.1, f r.2)) db.bucketBackups }

theorem mem_modifyBucketBackup {key : Text} {f : BucketBackup → BucketBackup} {db : Database} :
    r ∈ (db.modifyBucketBackup target key f).bucketBackups ↔
      (∃ b, (target, b) ∈ db.bucketBackups ∧ b.manifestKey = key ∧ r = (target, f b)) ∨
        (r ∈ db.bucketBackups ∧ rowKey r ≠ (target, key)) := by
  refine Table.mem_modify.trans ⟨?_, ?_⟩
  · intro ⟨⟨t, b⟩, hr', hr⟩
    by_cases hkey : rowKey (t, b) = (target, key)
    · obtain ⟨rfl, hmkey⟩ := Prod.mk.inj hkey
      rw [if_pos hkey] at hr
      exact Or.inl ⟨b, hr', hmkey, hr⟩
    · rw [if_neg hkey] at hr
      exact Or.inr ⟨hr ▸ hr', hr ▸ hkey⟩
  · intro h
    rcases h with ⟨b, hb, hmkey, hr⟩ | ⟨hr, hkey⟩
    · exact ⟨(target, b), hb, by rw [if_pos (by rw [rowKey, hmkey]), hr]⟩
    · exact ⟨r, hr, by rw [if_neg hkey]⟩

/-- Records our own intent before retention removes anything. -/
def markBackupDeleting (target key : Text) (now : Instant) : Database → Database :=
  modifyBucketBackup target key (fun b => { b with deleteStartedAt := unix now })

/-- Runs the moment the manifest is gone. -/
def markBackupArchiveOnly (target key : Text) : Database → Database :=
  modifyBucketBackup target key (fun b => { b with state := .archiveOnly })

/-- Removes the row of one backup. -/
def forgetBucketBackup (target key : Text) (db : Database) : Database :=
  { db with bucketBackups := Table.delete rowKey (target, key) db.bucketBackups }

/-! ### History -/

/-- Drops the history row of an object that no longer exists. -/
def deleteLocalBackupRow (target key : Text) (db : Database) : Database :=
  { db with
    backups := db.backups.filter (fun h => ¬ (h.storageTarget = target ∧ h.objectKey = key)) }

/-- Whether the reconciled view has a complete row for a history row. -/
def recoverable (db : Database) (h : Backup) : Bool :=
  db.bucketBackups.any (fun r => r.1 = h.storageTarget ∧ r.2.manifestKey = h.objectKey ∧
    r.2.state = .complete)

/-- Drops history rows whose objects are no longer recorded as complete. -/
def forgetLostLocalBackups (target : Text) (db : Database) : Database :=
  { db with
    backups := db.backups.filter (fun h => ¬ (h.storageTarget = target ∧ ¬ db.recoverable h)) }

/-- The history rows that statement drops. -/
def lostBackups (target : Text) (db : Database) : List Backup :=
  db.backups.filter (fun h => h.storageTarget = target ∧ ¬ db.recoverable h)

/-- Whether a finished backup job claims this directory in this store. -/
def abandonedUploadKey (target key : Text) (before : Instant) (db : Database) : Bool :=
  db.jobs.any (fun j => j.kind = .backup ∧ j.targetStorage = target ∧ j.targetKey = key ∧
    (j.state = .failed ∨ j.state = .interrupted) ∧ 0 < j.finishedAt ∧ j.finishedAt < unix before)

/-- SQL `LIKE`: `%` stands for any text, `_` for one character, letters match
    in either case. -/
def like : Text → Text → Bool
  | [], s => s = []
  | c :: p, s =>
    if c = '%' then s.tails.any (like p)
    else match s with
      | [] => false
      | d :: s => (c = '_' || c.toLower = d.toLower) && like p s

/-- Whether a job's row may go: nothing of it may still need cleaning, and its
    store has been read completely since it finished. -/
def prunable (before : Instant) (db : Database) (j : Job) : Bool :=
  0 < j.finishedAt && j.finishedAt < unix before &&
    !db.bucketBackups.any (fun r => r.1 = j.targetStorage ∧ r.2.state = .archiveOnly ∧
      j.targetKey ≠ [] ∧ like (j.targetKey ++ ['%']) r.2.manifestKey) &&
    (j.targetKey = [] || db.targets.any (fun t => t.target = j.targetStorage ∧
      j.finishedAt < t.reconciledAt))

/-- Keeps job history bounded. -/
def pruneJobs (before : Instant) (db : Database) : Database :=
  { db with jobs := db.jobs.filter (fun j => ¬ db.prunable before j) }

end Database

end Pgfy
