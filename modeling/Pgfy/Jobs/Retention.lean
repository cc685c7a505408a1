import Pgfy.Jobs.Select
import Pgfy.Calls

/-! # Reconciliation and retention

    A pass reads the whole store, records every folder as a complete listing
    found it, retires history rows the bucket no longer has, and then deletes
    what the policy no longer keeps. Publication writes the manifest last, so
    deletion removes it first.
-/

namespace Pgfy

open Calendar Storage Program

/-! ### The client of a store

    A listing is full pagination, so it is one call that answers completely or
    fails. -/

namespace Storage

/-- The name a listed key or folder has below `root`. -/
def segmentBelow (root : Text) (o : Object) : Text :=
  Text.trimSuffix ['/'] (Text.trimPrefix root o.key)

/-- The database folders of a store. Other segments are ignored. -/
def listDatabases (s : Settings) : Go (List Text) := do
  let objects ← bucket s (.listObjects s.backupsRoot false)
  let names := (objects.map (segmentBelow s.backupsRoot)).filter (fun n =>
    n ≠ [] && validDatabaseSegment n)
  return names.insertionSort (· ≤ ·)

/-- Classifies one database folder, newest first. -/
def listBackups (s : Settings) (dbName : Text) : Go (List Entry) :=
  if !validDatabaseSegment dbName then
    Action.fail (.message "not a database folder written by this application")
  else do
    let objects ← bucket s (.listObjects (s.databaseRoot dbName) true)
    return entriesFrom (s.databaseRoot dbName) objects

/-- Reads and fully validates one manifest. -/
def readManifest (s : Settings) (key : Text) : Go Manifest := do
  let _ ← Go.of (s.entryFor key)
  let content ← bucket s (.readBytes key)
  Go.of (s.decodeManifest key content)

/-- Deletes one object. -/
def remove (s : Settings) (key : Text) : Go Unit := bucket s (.removeObject key)

/-- What the provider says about keeping versions of deleted objects. -/
def protection (s : Settings) : Go Versioning := bucket s .bucketVersioning

end Storage

/-! ### Recording a folder -/

/-- Records the outcome of a pass over a store. -/
def setTargetReconciled (target : Text) (at_ : Instant) (lastError : String) : Go Unit := do
  store (.ensureTarget target)
  store (.recordReconciled target at_ lastError)

/-- Zeroes the rows of folders that have vanished from the bucket. -/
def tombstonePrefixes (target : Text) (present : List Text) (now : Instant) : Go Unit := do
  let names ← store (.prefixNames target)
  Action.forEach (fun name => store (.replacePrefix target { dbName := name } [] now))
    (names.filter (· ∉ present))

/-- The row of a listed entry before its manifest is known. -/
def Storage.Entry.row (dbName : Text) (entry : Entry) : BucketBackup :=
  { manifestKey := entry.manifestKey, archiveKey := entry.archiveKey, dbName := dbName,
    takenAt := entry.takenAt, state := entry.state, sizeBytes := entry.sizeBytes }

/-- The row with what its manifest says. -/
def BucketBackup.withManifest (b : BucketBackup) (m : Manifest) : BucketBackup :=
  { b with
    installationID := m.installationID, projectID := m.projectID, projectName := m.projectName
    postgresVersion := m.postgresVersion, tableCount := m.tables.length }

/-- The row with what was recorded when its key was first seen. -/
def BucketBackup.withRecorded (b previous : BucketBackup) : BucketBackup :=
  { b with
    installationID := previous.installationID, projectID := previous.projectID
    projectName := previous.projectName, postgresVersion := previous.postgresVersion
    tableCount := previous.tableCount }

/-- What reading the manifest of an entry makes of its row. An unreadable
    manifest is damaged, for whatever reason. -/
def classify (b : BucketBackup) (entry : Entry) (read : Except Err Manifest) : BucketBackup :=
  match read with
  | .ok m =>
    match checkManifest m entry with
    | .ok _ => b.withManifest m
    | .error _ => { b with state := .damaged }
  | .error _ => { b with state := .damaged }

/-- The recorded row whose owner is known, so that its manifest is not read again. -/
def knownOwner (recorded : List BucketBackup) (key : Text) : Option BucketBackup :=
  (Table.find BucketBackup.manifestKey key recorded).filter (·.installationID ≠ "")

/-- The row of one listed entry. -/
def readEntry (s : Settings) (recorded : List BucketBackup) (dbName : Text) (entry : Entry) :
    Run BucketBackup :=
  if entry.state = .complete ∨ entry.state = .manifestOnly then
    match knownOwner recorded entry.manifestKey with
    | some previous => Prog.ret ((entry.row dbName).withRecorded previous)
    | none => do
      let read ← (readManifest s entry.manifestKey : Run (Except Err Manifest))
      Prog.ret (classify (entry.row dbName) entry read)
  else Prog.ret (entry.row dbName)

/-- The rows of all entries, in their order. -/
def readEntries (s : Settings) (recorded : List BucketBackup) (dbName : Text) :
    List Entry → Run (List BucketBackup)
  | [] => Prog.ret []
  | entry :: rest => do
    let b ← readEntry s recorded dbName entry
    let bs ← readEntries s recorded dbName rest
    Prog.ret (b :: bs)

/-- What every row of a listed entry has in common, whatever its manifest says. -/
structure RowOf (dbName : Text) (entry : Entry) (b : BucketBackup) : Prop where
  manifestKey : b.manifestKey = entry.manifestKey
  archiveKey : b.archiveKey = entry.archiveKey
  dbName : b.dbName = dbName
  takenAt : b.takenAt = entry.takenAt
  unmarked : b.deleteStartedAt = 0
  state : b.state = entry.state ∨
    (b.state = .damaged ∧ (entry.state = .complete ∨ entry.state = .manifestOnly))

theorem rowOf_row (dbName : Text) (entry : Entry) : RowOf dbName entry (entry.row dbName) :=
  ⟨rfl, rfl, rfl, rfl, rfl, Or.inl rfl⟩

theorem rowOf_withRecorded (dbName : Text) (entry : Entry) (previous : BucketBackup) :
    RowOf dbName entry ((entry.row dbName).withRecorded previous) :=
  ⟨rfl, rfl, rfl, rfl, rfl, Or.inl rfl⟩

theorem rowOf_classify (dbName : Text) {entry : Entry}
    (h : entry.state = .complete ∨ entry.state = .manifestOnly) (read : Except Err Manifest) :
    RowOf dbName entry (classify (entry.row dbName) entry read) := by
  unfold classify
  split
  · split
    · exact ⟨rfl, rfl, rfl, rfl, rfl, Or.inl rfl⟩
    · exact ⟨rfl, rfl, rfl, rfl, rfl, Or.inr ⟨rfl, h⟩⟩
  · exact ⟨rfl, rfl, rfl, rfl, rfl, Or.inr ⟨rfl, h⟩⟩

/-- Reading a manifest never makes a row archive-only. -/
theorem RowOf.archiveOnly {dbName : Text} {entry : Entry} {b : BucketBackup}
    (h : RowOf dbName entry b) (hs : b.state = .archiveOnly) : entry.state = .archiveOnly := by
  rcases h.state with hstate | ⟨hstate, -⟩
  · rw [← hstate, hs]
  · rw [hs] at hstate
    cases hstate

theorem rowOf_keys_nodup {dbName root : Text} {objects : List Object} {bs : List BucketBackup}
    (h : List.Forall₂ (RowOf dbName) (entriesFrom root objects) bs) :
    (bs.map BucketBackup.manifestKey).Nodup := by
  have heq : (entriesFrom root objects).map Entry.manifestKey =
      bs.map BucketBackup.manifestKey := by
    rw [← List.forall₂_eq_eq_eq, List.forall₂_map_left_iff, List.forall₂_map_right_iff]
    exact h.imp (fun _ _ h => h.manifestKey.symm)
  exact heq ▸ nodup_entriesFrom root objects

/-- What a folder holds, counted from its rows. -/
def folderState (dbName : Text) (backups : List BucketBackup) : PrefixState :=
  { dbName := dbName
    complete := backups.countP (·.state = .complete)
    manifestOnly := backups.countP (·.state = .manifestOnly)
    archiveOnly := backups.countP (·.state = .archiveOnly)
    damaged := backups.countP (·.state = .damaged)
    mixed := 1 < ((backups.filter (·.state = .complete)).map (fun b =>
      b.installationID ++ "|" ++ b.projectID)).dedup.length }

/-- Every row is counted, under one state. -/
theorem folderState_total (dbName : Text) (backups : List BucketBackup) :
    let p := folderState dbName backups
    p.complete + p.manifestOnly + p.archiveOnly + p.damaged = backups.length := by
  induction backups with
  | nil => rfl
  | cons b rest ih =>
    simp only [folderState, List.countP_cons, List.length_cons] at ih ⊢
    cases b.state <;> simp <;> omega

/-- A folder is mixed if two of its complete backups are of different owners. -/
theorem folderState_mixed (dbName : Text) (backups : List BucketBackup) :
    (folderState dbName backups).mixed = true ↔
      ∃ a ∈ backups, ∃ b ∈ backups, a.state = .complete ∧ b.state = .complete ∧
        a.installationID ++ "|" ++ a.projectID ≠ b.installationID ++ "|" ++ b.projectID := by
  rw [folderState, decide_eq_true_eq, ← List.card_toFinset, Finset.one_lt_card]
  simp only [List.mem_toFinset, List.mem_map, List.mem_filter, decide_eq_true_eq]
  constructor
  · rintro ⟨_, ⟨a, ⟨ha, hstate⟩, rfl⟩, _, ⟨b, ⟨hb, hstate'⟩, rfl⟩, hne⟩
    exact ⟨a, ha, b, hb, hstate, hstate', hne⟩
  · rintro ⟨a, ha, b, hb, hstate, hstate', hne⟩
    exact ⟨_, ⟨a, ⟨ha, hstate⟩, rfl⟩, _, ⟨b, ⟨hb, hstate'⟩, rfl⟩, hne⟩

/-- Records one database folder exactly as a complete listing found it. -/
def reconcilePrefix (s : Settings) (target dbName : Text) : Go Unit := do
  let entries ← listBackups s dbName
  let recorded ← store (.prefixBackups target dbName)
  let backups ← Action.lift (readEntries s recorded dbName entries)
  let now ← Action.lift clock
  store (.replacePrefix target (folderState dbName backups) backups now)

/-- Records every folder and returns the last failure: one unreadable folder
    must not make the rest look authoritative. -/
def reconcilePrefixes (s : Settings) (target : Text) : List Text → Option Err → Run (Option Err)
  | [], failure => Prog.ret failure
  | name :: rest, failure => do
    let outcome ← (reconcilePrefix s target name : Run (Except Err Unit))
    match outcome with
    | .ok _ => reconcilePrefixes s target rest failure
    | .error e => reconcilePrefixes s target rest (some e)

/-! ### Deleting -/

/-- A row whose two keys are those of one directory. -/
def BucketBackup.Placed (b : BucketBackup) : Prop :=
  ∃ directory, b.manifestKey = directory ++ '/' :: manifestFile ∧
    b.archiveKey = directory ++ '/' :: archiveFile

/-- The archive of a row is where its manifest is. -/
theorem BucketBackup.Placed.archiveKey_eq {a b : BucketBackup} (ha : a.Placed) (hb : b.Placed)
    (h : a.manifestKey = b.manifestKey) : a.archiveKey = b.archiveKey := by
  obtain ⟨da, ham, haa⟩ := ha
  obtain ⟨db, hbm, hba⟩ := hb
  have hd : da = db := List.append_cancel_right (ham.symm.trans (h.trans hbm))
  rw [haa, hba, hd]

theorem RowOf.placed {dbName root : Text} {objects : List Object} {e : Entry} {b : BucketBackup}
    (h : RowOf dbName e b) (he : e ∈ entriesFrom root objects) : b.Placed := by
  obtain ⟨f, -, rfl⟩ := mem_entriesFrom.mp he
  exact ⟨root ++ f.name, h.manifestKey, h.archiveKey⟩

/-- Removes the archive of a backup whose manifest is gone, then its rows. -/
def finishDelete (s : Settings) (target : Text) (b : BucketBackup) : Go Unit := do
  remove s b.archiveKey
  store (.forgetBucketBackup target b.manifestKey)
  store (.deleteLocalBackupRow target b.manifestKey)

/-- The entry of a recorded row, as `checkManifest` wants it. -/
def BucketBackup.entry (b : BucketBackup) : Entry :=
  { directory := Text.trimSuffix ('/' :: manifestFile) b.manifestKey
    manifestKey := b.manifestKey
    archiveKey := b.archiveKey }

/-- Whether a manifest just read still belongs to this installation and to the
    project its row names. -/
def ownedManifest (installationID : String) (b : BucketBackup) (m : Manifest) : Bool :=
  (checkManifest m b.entry).isOk && m.installationID = installationID && m.projectID = b.projectID

theorem ownedManifest_eq_true {installationID : String} {b : BucketBackup} {m : Manifest} :
    ownedManifest installationID b m = true ↔ checkManifest m b.entry = .ok () ∧
      m.installationID = installationID ∧ m.projectID = b.projectID := by
  unfold ownedManifest
  cases checkManifest m b.entry with
  | error e | ok u => simp [Except.isOk, Except.toBool]

/-- Mirrors publication: the intent is recorded first, the manifest goes before
    the archive, the local row goes last. -/
def deleteBackup (s : Settings) (installationID : String) (target : Text) (b : BucketBackup) :
    Go Unit := do
  let m ← readManifest s b.manifestKey
  if !ownedManifest installationID b m then do
    store (.forgetBucketBackup target b.manifestKey)
    Action.fail (.message ("backup " ++ String.ofList b.entry.directory ++
      " changed since it was recorded; it will be read again"))
  else do
    let now ← Action.lift clock
    store (.markBackupDeleting target b.manifestKey now)
    remove s b.manifestKey
    store (.markBackupArchiveOnly target b.manifestKey)
    finishDelete s target b

/-- A folder holding another installation's backups, or anything damaged, is
    left entirely alone. -/
def blockedByForeignContent (backups : List BucketBackup) (installationID : String) : Bool :=
  backups.any (fun b => b.state = .damaged ||
    (b.state = .complete && b.installationID ≠ installationID))

/-- Removes the archive of an interrupted backup of ours, and only ours. -/
def cleanAbandonedUploads (s : Settings) (target : Text) (backups : List BucketBackup) :
    Go Unit := do
  let now ← Action.lift clock
  let cutoff := now - 24 * hour
  Action.forEach (fun b => do
    let directory := b.manifestKey.take (b.manifestKey.length - ('/' :: manifestFile).length)
    let ours ← store (.abandonedUploadKey target directory cutoff)
    if ours then do
      remove s b.archiveKey
      store (.forgetBucketBackup target b.manifestKey)
    else pure ())
    (backups.filter (fun b => ¬ (b.state ≠ .archiveOnly ∨ 0 < b.deleteStartedAt ∨
      cutoff < ofUnix b.takenAt)))

/-- Applies the policy to one folder. Our own half-deletes are finished first:
    they have no manifest left, so the ownership rules do not apply to them. -/
def retainDatabase (s : Settings) (installationID : String) (target dbName : Text)
    (policy : BackupPolicy) : Go Unit := do
  let backups ← store (.prefixBackups target dbName)
  Action.forEach (finishDelete s target)
    (backups.filter (fun b => b.state = .archiveOnly && 0 < b.deleteStartedAt))
  if blockedByForeignContent backups installationID then pure ()
  else do
    let now ← Action.lift clock
    Action.forEach (deleteBackup s installationID target) (selectExpired backups policy now)
    cleanAbandonedUploads s target backups

/-- Whether the bucket is protected well enough to delete from. -/
def mayRetain (s : Settings) (v : Versioning) : Bool :=
  v = .enabled || (v = .unsupported && s.bucketProtection = .acknowledged)

/-- Runs retention folder by folder; a failure in one does not stop the others. -/
def retainEach (s : Settings) (installationID : String) (policy : BackupPolicy) :
    List Text → Run Unit
  | [] => Prog.ret ()
  | dbName :: rest => do
    let _ ← (retainDatabase s installationID s.target dbName policy : Run (Except Err Unit))
    retainEach s installationID policy rest

/-- The policy in force. -/
def currentPolicy : Run BackupPolicy := do
  let p ← (store .backupPolicy : Run (Except Err BackupPolicy))
  match p with
  | .ok p => Prog.ret p
  | .error _ => Prog.ret .fallback

/-- Applies the operator's policy, unless the bucket is not protected. -/
def retain (s : Settings) (installationID : String) (databases : List Text) : Run Unit := do
  let v ← (protection s : Run (Except Err Versioning))
  match v with
  | .error _ => Prog.ret ()
  | .ok v =>
    if mayRetain s v then do
      let policy ← currentPolicy
      retainEach s installationID policy databases
    else Prog.ret ()

/-! ### A pass -/

def pruneHistory : Run Unit := do
  let now ← clock
  let _ ← (store (.pruneJobs (now - 90 * 24 * hour)) : Run (Except Err Unit))
  Prog.ret ()

/-- Notes that a pass failed and returns its error. -/
def abandonPass (target : Text) (e : Err) : Go Unit := do
  let now ← Action.lift clock
  let _ ← Action.attempt (setTargetReconciled target now e.text)
  Action.fail e

/-- What follows a complete view: history, and retention unless an update
    holds the installation quiet. -/
def afterReconcile (s : Settings) (installationID : String) (databases : List Text) : Run Unit := do
  let _ ← (store (.forgetLostLocalBackups s.target) : Run (Except Err Unit))
  let on ← (store .maintenance : Run (Except Err Bool))
  match on with
  | .ok false => do
    retain s installationID databases
    pruneHistory
  | _ => Prog.ret ()

/-- One pass over a store. -/
def reconcile (s : Settings) (installationID : String) : Go Unit := do
  store (.activateStorageTarget { target := s.target, endpoint := s.endpoint, bucket := s.bucket,
                                  folder := s.folder })
  match ← Action.attempt (listDatabases s) with
  | .error e => abandonPass s.target e
  | .ok databases => do
    let now ← Action.lift clock
    tombstonePrefixes s.target databases now
    match ← Action.lift (reconcilePrefixes s s.target databases none) with
    | some e => abandonPass s.target e
    | none => do
      let now ← Action.lift clock
      setTargetReconciled s.target now ""
      Action.lift (afterReconcile s installationID databases)

end Pgfy
