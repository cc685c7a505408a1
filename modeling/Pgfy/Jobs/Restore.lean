import Pgfy.Jobs.Tool
import Pgfy.Store.Schema

/-! # Restoring a backup

    A restore downloads an archive, runs `pg_restore` on it and compares the
    database with what the manifest recorded at backup time. The tool may ignore
    errors and still exit with zero, so the count of its errors decides too.

    All that a restore is told by others, from the bucket to the restored
    database, is in `RestoreEnv`.
-/

namespace Pgfy

open Calendar Storage

/-! ### Verification -/

/-- A manifest with what a restore compares. -/
structure RestoreManifest extends Manifest where
  sha256 : String
  sizeBytes : ℤ
  tablesTruncated : Bool := false
  objects : Option ObjectCounts := none
deriving DecidableEq

/-- What reading an object gives: its size, and the manifest its bytes decode
    to, if they do. -/
structure RestoreContent where
  size : ℤ
  manifest : Option RestoreManifest
deriving DecidableEq

/-- Reads and fully validates the manifest of a restore: by the same rules as
    listing and retention. -/
def restoreManifest (s : Settings) (key : Text) (read : Except Err RestoreContent) :
    Except Err RestoreManifest := do
  let _ ← s.entryFor key
  let c ← read
  let m ← s.decodeManifest key ⟨c.size, c.manifest.map RestoreManifest.toManifest⟩
  match c.manifest with
  | some read => return { read with toManifest := m }
  | none => throw (.message "the manifest is unreadable or from an unsupported version")

/-- What the restored database answers. -/
structure RestoredDatabase where
  /-- the rows of a table -/
  rows : String → String → Except Err ℤ
  objects : Except Err ObjectCounts
  /-- how many tables have another owner than the role -/
  foreign : Text → Except Err ℤ
  canConnect : Text → Except Err Bool

structure Check where
  name : String
  ok : Bool
  detail : String := ""
deriving DecidableEq

/-- Partial: every comparison passed, but not all could be made. -/
inductive Verification where
  | verified
  | partially
  | failed
deriving DecidableEq

/-- What was restored beside what the backup had. -/
def compared (restored backup : ℤ) : String :=
  toString restored ++ " restored, " ++ toString backup ++ " in backup"

def tableCheck (db : RestoredDatabase) (t : TableCount) : Check :=
  let name := "rows in " ++ t.schema ++ "." ++ t.name
  match db.rows t.schema t.name with
  | .ok count => { name := name, ok := count = t.rows, detail := compared count t.rows }
  | .error _ => { name := name, ok := false, detail := "table missing after restore" }

def objectCheck (answer : Except Err ObjectCounts) (name : String) (count : ObjectCounts → ℤ)
    (backup : ObjectCounts) : Check :=
  match answer with
  | .ok c =>
    { name := name, ok := count c = count backup, detail := compared (count c) (count backup) }
  | .error _ => { name := name, ok := false, detail := "the count could not be read after restore" }

def objectChecks (answer : Except Err ObjectCounts) (backup : ObjectCounts) : List Check :=
  [objectCheck answer "sequences" ObjectCounts.sequences backup,
   objectCheck answer "views" ObjectCounts.views backup,
   objectCheck answer "functions" ObjectCounts.functions backup,
   objectCheck answer "indexes" ObjectCounts.indexes backup,
   objectCheck answer "constraints" ObjectCounts.constraints backup]

def ownershipCheck (answer : Except Err ℤ) : Check :=
  match answer with
  | .ok foreign =>
    { name := "ownership", ok := foreign = 0
      detail := if 0 < foreign then toString foreign ++ " tables belong to another role"
        else "all tables belong to the new project user" }
  | .error _ => { name := "ownership", ok := false, detail := "ownership could not be checked" }

def permissionCheck (answer : Except Err Bool) : Check :=
  if answer.toOption = some true then
    { name := "permissions", ok := true
      detail := "the new project user can connect with its own credentials" }
  else { name := "permissions", ok := false, detail := "the new project user cannot connect" }

/-- Compares the restored database with the manifest. The checks that only tell
    what could not be compared are passed ones. -/
def verifyRestore (db : RestoredDatabase) (m : RestoreManifest) (role : Text) :
    List Check × Verification :=
  let checks := m.tables.map (tableCheck db) ++
    (if m.tables = [] then
      [{ name := "schema", ok := true, detail := "the backup contained no user tables" }]
    else []) ++
    (if m.tablesTruncated then
      [{ name := "table coverage", ok := true
         detail := "row counts cover the first " ++ toString m.tables.length ++
          " tables recorded by this backup" }] else []) ++
    (match m.objects with
    | none =>
      [{ name := "database objects", ok := true
         detail := "this backup predates object counts, so only tables could be compared" }]
    | some backup => objectChecks db.objects backup) ++
    [ownershipCheck (db.foreign role), permissionCheck (db.canConnect role)]
  let full := !m.tablesTruncated && m.objects.isSome
  (checks, if !checks.all (·.ok) then .failed else if !full then .partially else .verified)

/-! ### The job -/

structure RestoreResult where
  projectID : String := ""
  verification : Option Verification := none
  verified : Bool := false
  summary : String := ""
  restoreErrors : ℤ := 0
  stderr : Text := []
  checks : List Check := []
deriving DecidableEq

/-- What a restore is told by others. -/
structure RestoreEnv where
  input : Except Err RestoreInput
  client : Except Err Settings
  read : Settings → Text → Except Err RestoreContent
  serverVersion : Option String
  /-- the free space of the workspace -/
  free : Option ℤ
  workspace : Except Err Unit
  download : Text → Except Err Unit
  /-- the checksum and size of what was downloaded -/
  checksum : Except Err (String × ℤ)
  provision : String → Except Err Unit
  project : String → Except Err Project
  passfile : Except Err Unit
  pgRestore : ToolProcess
  connect : Text → Except Err RestoredDatabase

def RestoreEnv.manifest (env : RestoreEnv) (s : Settings) (key : Text) :
    Except Err RestoreManifest :=
  restoreManifest s key (env.read s key)

def maxArchiveBytes : ℤ := 2 * 2 ^ 30

/-- The major version: what comes before the first dot or blank, unless that is
    nothing. -/
def major (version : String) : Text :=
  let before := version.toList.takeWhile (fun c => c ≠ '.' ∧ c ≠ ' ')
  if before = [] then version.toList else before

/-- Refuses work that would fill the disk. -/
def ensureWorkspace (free : Option ℤ) (needed : ℤ) : Except Err Unit :=
  match free with
  | none => .error (.message "the backup workspace is unavailable")
  | some free =>
    let room := int64 (needed * 2 + 256 * 2 ^ 20)
    if free < room then
      .error (.message ("not enough free disk for this job: " ++ toString (free / 2 ^ 20) ++
        " MB free, about " ++ toString (room / 2 ^ 20) ++ " MB needed"))
    else .ok ()

/-- An error ends the job with the result so far. -/
def RestoreResult.orFail {α : Type} (result : RestoreResult) (x : Except Err α) :
    Except (RestoreResult × Err) α :=
  x.mapError (fun e => (result, e))

/-- What `pg_restore` and the checks make of the result. -/
def RestoreResult.judge (result : RestoreResult) (run : ToolRun)
    (checked : List Check × Verification) : RestoreResult :=
  let reported := run.exit ≠ 0 ∨ 0 < run.errors
  let state := if reported then .failed else checked.2
  { result with
    checks := checked.1
    verification := some state
    verified := state = .verified
    summary :=
      if reported then
        "Completed with " ++ toString run.errors ++ " restore errors (" ++ run.counted ++
          "). The database exists and can be inspected, but it is not verified."
      else match state with
        | .partially => "Restored. Every check that this backup supports passed, but it " ++
          "does not carry the full set of baselines."
        | .failed => "Restored, but verification found differences. Review the checks before " ++
          "relying on this database."
        | .verified => "Restored and verified against the baselines recorded at backup time." }

/-- The end of a restore: the tool is run and the database is looked at. -/
def restoreInto (env : RestoreEnv) (result : RestoreResult) (m : RestoreManifest) (p : Project) :
    Except (RestoreResult × Err) RestoreResult := do
  let run := runTool "pg_restore" env.pgRestore
  match run.err with
  | some e => .error (result, e)
  | none =>
    let result := { result with restoreErrors := run.errors, stderr := run.excerpt }
    match env.connect p.dbName with
    | .error _ => .error (result, .message "PostgreSQL is not reachable for verification")
    | .ok db => .ok (result.judge run (verifyRestore db m p.roleName))

def runRestore (env : RestoreEnv) : Except (RestoreResult × Err) RestoreResult := do
  let input ← RestoreResult.orFail {} env.input
  let result : RestoreResult := { projectID := input.projectID }
  let settings ← result.orFail env.client
  let m ← result.orFail (env.manifest settings input.manifestKey)
  match env.serverVersion with
  | none => .error (result, .message "PostgreSQL is not reachable")
  | some version =>
    if major m.postgresVersion ≠ major version then
      .error (result, .message ("the backup was made with PostgreSQL " ++ m.postgresVersion ++
        " and this server runs " ++ version ++
        "; restoring across major versions is not supported"))
    else if maxArchiveBytes < m.sizeBytes then
      .error (result, .message "the archive is above the size limit of this release")
    else do
      result.orFail (ensureWorkspace env.free m.sizeBytes)
      result.orFail env.workspace
      result.orFail (env.download m.archiveKey)
      let (sum, n) ← result.orFail env.checksum
      if sum ≠ m.sha256 ∨ n ≠ m.sizeBytes then
        .error (result, .message
          "the downloaded archive does not match the manifest checksum; it will not be restored")
      else do
        result.orFail ((env.provision input.projectID).mapError (fun e =>
          .message ("the target project could not be created: " ++ e.text)))
        let p ← result.orFail (env.project input.projectID)
        if p.stage ≠ .ready then
          .error (result, .message "the target project is not ready; it may have been deleted")
        else do
          result.orFail env.passfile
          restoreInto env result m p

/-! ### What verified means -/

/-- The result a restore records, with or without an error. -/
def RestoreEnv.reported (env : RestoreEnv) : RestoreResult :=
  match runRestore env with
  | .ok result => result
  | .error (result, _) => result

/-- All that a verified restore should have shown. -/
structure Restored (process : ToolProcess) (m : RestoreManifest) (role : Text)
    (db : RestoredDatabase) : Prop where
  started : process.started = true
  ended : process.wait = .success
  quiet : ∀ line ∈ stderrLines process.stderr, ¬ errorMark <:+: line
  tables : ∀ t ∈ m.tables, db.rows t.schema t.name = .ok t.rows
  objects : ∃ counts, m.objects = some counts ∧ db.objects = .ok counts
  whole : m.tablesTruncated = false
  owned : db.foreign role = .ok 0
  connects : db.canConnect role = .ok true

/-- What a restore was told shows that the database is as it was backed up. -/
def RestoreEnv.Sound (env : RestoreEnv) : Prop :=
  ∃ input settings m p db, env.input = .ok input ∧ env.client = .ok settings ∧
    env.manifest settings input.manifestKey = .ok m ∧ env.project input.projectID = .ok p ∧
    env.connect p.dbName = .ok db ∧ Restored env.pgRestore m p.roleName db

theorem tableCheck_ok {db : RestoredDatabase} {t : TableCount} :
    (tableCheck db t).ok = true ↔ db.rows t.schema t.name = .ok t.rows := by
  unfold tableCheck
  cases db.rows t.schema t.name <;> simp

theorem objectChecks_ok {answer : Except Err ObjectCounts} {backup : ObjectCounts} :
    (∀ check ∈ objectChecks answer backup, check.ok = true) ↔ answer = .ok backup := by
  cases answer with
  | error e => simp [objectChecks, objectCheck]
  | ok counts =>
    obtain ⟨sequences, views, functions, indexes, constraints⟩ := counts
    obtain ⟨sequences', views', functions', indexes', constraints'⟩ := backup
    simp [objectChecks, objectCheck]

theorem ownershipCheck_ok {answer : Except Err ℤ} :
    (ownershipCheck answer).ok = true ↔ answer = .ok 0 := by
  cases answer <;> simp [ownershipCheck]

theorem permissionCheck_ok {answer : Except Err Bool} :
    (permissionCheck answer).ok = true ↔ answer = .ok true := by
  cases answer with
  | error e => simp [permissionCheck, Except.toOption]
  | ok allowed => cases allowed <;> simp [permissionCheck, Except.toOption]

/-- The comparison ends with verified exactly when nothing is missing and
    everything is equal. -/
theorem verifyRestore_verified {db : RestoredDatabase} {m : RestoreManifest} {role : Text} :
    (verifyRestore db m role).2 = .verified ↔
      (∀ t ∈ m.tables, db.rows t.schema t.name = .ok t.rows) ∧
      (∃ counts, m.objects = some counts ∧ db.objects = .ok counts) ∧
      m.tablesTruncated = false ∧ db.foreign role = .ok 0 ∧ db.canConnect role = .ok true := by
  have hschema : (if m.tables = [] then
      [({ name := "schema", ok := true, detail := "the backup contained no user tables" } : Check)]
      else []).all (·.ok) = true := by
    split <;> rfl
  unfold verifyRestore
  cases hobjects : m.objects with
  | none => simp; split <;> simp
  | some counts =>
    cases htruncated : m.tablesTruncated with
    | true => simp; split <;> simp
    | false =>
      simp only [List.all_append, hschema, List.all_map, Bool.and_true]
      simp [tableCheck_ok, objectChecks_ok, ownershipCheck_ok, permissionCheck_ok]
      tauto

/-- A tool of which something can be claimed, and that exited with zero, ran to
    its end. -/
theorem runTool_ended {name : String} {process : ToolProcess}
    (herr : (runTool name process).err = none) (hexit : (runTool name process).exit = 0) :
    process.started = true ∧ process.wait = .success := by
  unfold runTool at herr hexit
  cases hstarted : process.started with
  | false => simp [hstarted] at herr
  | true =>
    refine ⟨rfl, ?_⟩
    cases hwait : process.wait with
    | success => rfl
    | signaled signal | other => simp [hstarted, hwait] at herr
    | exited code failed =>
      cases hexpired : process.expired with
      | true => simp [hstarted, hwait, hexpired] at herr
      | false => exact absurd (by simpa [hstarted, hwait, hexpired] using hexit) failed

theorem runTool_success {name : String} {process : ToolProcess}
    (hstarted : process.started = true) (hwait : process.wait = .success) :
    runTool name process = readToolErrors process.stderr := by
  unfold runTool
  rw [hstarted, hwait]
  rfl

theorem RestoreResult.judge_verified (result : RestoreResult) (run : ToolRun)
    (checked : List Check × Verification) :
    (result.judge run checked).verified = true ↔
      run.exit = 0 ∧ run.errors ≤ 0 ∧ checked.2 = .verified := by
  unfold RestoreResult.judge
  by_cases hreported : run.exit ≠ 0 ∨ 0 < run.errors
  · simp [hreported]
    omega
  · obtain ⟨hexit, herrors⟩ := not_or.mp hreported
    simp only [if_neg hreported, decide_eq_true_eq]
    exact ⟨fun h => ⟨not_not.mp hexit, not_lt.mp herrors, h⟩, fun h => h.2.2⟩

/-- A restore ends early, with nothing claimed, or comes to the tool. -/
def RestoreEnv.Reaches (env : RestoreEnv) (x : Except (RestoreResult × Err) RestoreResult) :
    Prop :=
  (∃ result e, x = .error (result, e) ∧ result.verified = false) ∨
  ∃ input settings m p, env.input = .ok input ∧ env.client = .ok settings ∧
    env.manifest settings input.manifestKey = .ok m ∧ env.project input.projectID = .ok p ∧
    x = restoreInto env { projectID := input.projectID } m p

theorem RestoreEnv.Reaches.early {env : RestoreEnv} {result : RestoreResult} {e : Err}
    (h : result.verified = false) : env.Reaches (.error (result, e)) :=
  .inl ⟨result, e, rfl, h⟩

theorem RestoreEnv.Reaches.step {α : Type} {env : RestoreEnv} {result : RestoreResult}
    {x : Except Err α} {f : α → Except (RestoreResult × Err) RestoreResult}
    (h : result.verified = false) (hok : ∀ a, x = .ok a → env.Reaches (f a)) :
    env.Reaches (result.orFail x >>= f) := by
  cases x with
  | error e => exact .early h
  | ok a => exact hok a rfl

theorem runRestore_reaches (env : RestoreEnv) : env.Reaches (runRestore env) := by
  unfold runRestore
  refine .step rfl fun input hinput => ?_
  refine .step rfl fun settings hsettings => ?_
  refine .step rfl fun m hm => ?_
  cases env.serverVersion with
  | none => exact .early rfl
  | some version =>
    simp only
    split
    · exact .early rfl
    split
    · exact .early rfl
    refine .step rfl fun _ _ => .step rfl fun _ _ => .step rfl fun _ _ => ?_
    refine .step rfl fun ⟨sum, n⟩ _ => ?_
    simp only
    split
    · exact .early rfl
    refine .step rfl fun _ _ => .step rfl fun p hp => ?_
    split
    · exact .early rfl
    refine .step rfl fun _ _ => ?_
    exact .inr ⟨input, settings, m, p, hinput, hsettings, hm, hp, rfl⟩

/-- A result that is reported as verified was judged by a run of the tool and the
    answers of the restored database. -/
theorem RestoreEnv.reported_verified {env : RestoreEnv} (h : env.reported.verified = true) :
    ∃ input settings m p db, env.input = .ok input ∧ env.client = .ok settings ∧
      env.manifest settings input.manifestKey = .ok m ∧ env.project input.projectID = .ok p ∧
      env.connect p.dbName = .ok db ∧ env.pgRestore.started = true ∧
      env.pgRestore.wait = .success ∧ tallied (stderrLines env.pgRestore.stderr) ≤ 0 ∧
      (verifyRestore db m p.roleName).2 = .verified := by
  unfold RestoreEnv.reported at h
  obtain ⟨result, e, hrun, hunclaimed⟩ | ⟨input, settings, m, p, hinput, hsettings, hm, hp, hrun⟩ :=
    runRestore_reaches env
  · rw [hrun] at h
    exact absurd h (by simp [hunclaimed])
  · rw [hrun] at h
    unfold restoreInto at h
    cases herr : (runTool "pg_restore" env.pgRestore).err with
    | some e => simp [herr] at h
    | none =>
      cases hconnect : env.connect p.dbName with
      | error e => simp [herr, hconnect] at h
      | ok db =>
        simp only [herr, hconnect] at h
        obtain ⟨hexit, herrors, hstate⟩ := (RestoreResult.judge_verified _ _ _).mp h
        obtain ⟨hstarted, hwait⟩ := runTool_ended herr hexit
        rw [runTool_success hstarted hwait, readToolErrors_errors] at herrors
        exact ⟨input, settings, m, p, db, hinput, hsettings, hm, hp, hconnect, hstarted, hwait,
          herrors, hstate⟩

/-! ### A summary that hides errors -/

def sampleStore : Settings := ⟨"s3".toList, "vault".toList, [], .versioning⟩

def sampleKey : Text := "backups/shop/19700110T023000Z/manifest.json".toList

/-- A backup of a database with one table. -/
def sampleManifest : RestoreManifest where
  version := 1
  installationID := "home"
  projectID := "p1"
  projectName := "Shop"
  dbName := "shop".toList
  postgresVersion := "17.2"
  createdAt := ofUnix 786600
  archiveKey := "backups/shop/19700110T023000Z/archive.dump".toList
  manifestKey := sampleKey
  tables := [⟨"public", "orders", 3⟩]
  sha256 := "5f2c"
  sizeBytes := 4096
  objects := some ⟨1, 0, 0, 1, 1⟩

/-- The project it is restored into. -/
def copyProject : Project where
  id := "p2"
  name := "Copy"
  dbName := "copy".toList
  roleName := "copy".toList
  idempotencyKey := "p2"
  stage := .ready
  createdAt := 1

/-- A restore of it where all goes well, and the tool prints what is given. -/
def smooth (stream : Text) : RestoreEnv where
  input := .ok { manifestKey := sampleKey, name := "Copy", projectID := "p2" }
  client := .ok sampleStore
  read := fun _ _ => .ok ⟨2048, some sampleManifest⟩
  serverVersion := some "17.4"
  free := some (2 ^ 40)
  workspace := .ok ()
  download := fun _ => .ok ()
  checksum := .ok ("5f2c", 4096)
  provision := fun _ => .ok ()
  project := fun _ => .ok copyProject
  passfile := .ok ()
  pgRestore := { stderr := stream }
  connect := fun _ => .ok
    { rows := fun _ _ => .ok 3
      objects := .ok ⟨1, 0, 0, 1, 1⟩
      foreign := fun _ => .ok 0
      canConnect := fun _ => .ok true }

theorem smooth_manifest (stream : Text) :
    (smooth stream).manifest sampleStore sampleKey = .ok sampleManifest := by
  show restoreManifest sampleStore sampleKey (.ok ⟨2048, some sampleManifest⟩) = .ok sampleManifest
  decide +kernel

theorem RestoreResult.orFail_bind {α β : Type} (result : RestoreResult) {x : Except Err α} {a : α}
    (h : x = .ok a) (f : α → Except (RestoreResult × Err) β) : result.orFail x >>= f = f a := by
  rw [h]
  rfl

theorem smooth_reaches (stream : Text) : runRestore (smooth stream) =
    restoreInto (smooth stream) { projectID := "p2" } sampleManifest copyProject := by
  have hmajor : ¬ major sampleManifest.postgresVersion ≠ major "17.4" := by decide
  have hsize : ¬ maxArchiveBytes < sampleManifest.sizeBytes := by decide
  have hroom : ensureWorkspace (smooth stream).free sampleManifest.sizeBytes = .ok () := by
    show ensureWorkspace (some (2 ^ 40)) 4096 = .ok ()
    decide +kernel
  have hsum : ¬ ("5f2c" ≠ sampleManifest.sha256 ∨ (4096 : ℤ) ≠ sampleManifest.sizeBytes) := by
    decide
  have hready : ¬ copyProject.stage ≠ .ready := by decide
  have hprovision : ((smooth stream).provision "p2").mapError (fun e : Err =>
      Err.message ("the target project could not be created: " ++ e.text)) = .ok () := rfl
  unfold runRestore
  rw [RestoreResult.orFail_bind _ (show (smooth stream).input = .ok _ from rfl)]
  simp only
  rw [RestoreResult.orFail_bind _ (show (smooth stream).client = .ok _ from rfl),
    RestoreResult.orFail_bind _ (smooth_manifest stream)]
  simp only [show (smooth stream).serverVersion = some "17.4" from rfl]
  rw [if_neg hmajor, if_neg hsize, RestoreResult.orFail_bind _ hroom,
    RestoreResult.orFail_bind _ (show (smooth stream).workspace = .ok _ from rfl),
    RestoreResult.orFail_bind _ (show (smooth stream).download _ = .ok _ from rfl),
    RestoreResult.orFail_bind _ (show (smooth stream).checksum = .ok _ from rfl)]
  simp only
  rw [if_neg hsum, RestoreResult.orFail_bind _ hprovision,
    RestoreResult.orFail_bind _ (show (smooth stream).project _ = .ok _ from rfl), if_neg hready,
    RestoreResult.orFail_bind _ (show (smooth stream).passfile = .ok _ from rfl)]

/-- Only the count of the tool's errors stands between such a restore and
    verified. -/
theorem smooth_verified {stream : Text} (h : tallied (stderrLines stream) ≤ 0) :
    (smooth stream).reported.verified = true := by
  obtain ⟨-, herr, hexit, -⟩ := SliceReader.whole.readToolErrors_spec stream
  change (readToolErrors stream).err = none at herr
  have htool : runTool "pg_restore" (smooth stream).pgRestore = readToolErrors stream := rfl
  unfold RestoreEnv.reported
  rw [smooth_reaches]
  unfold restoreInto
  simp only [htool, herr]
  refine (RestoreResult.judge_verified _ _ _).mpr ⟨hexit, ?_, ?_⟩
  · rw [readToolErrors_errors]
    exact h
  · decide +kernel

/-- Verified means what it says, whatever else happens, exactly for the streams
    whose errors leave a positive count. -/
theorem verified_sound_iff (stream : Text) :
    (∀ env : RestoreEnv, env.pgRestore.stderr = stream → env.reported.verified = true →
        env.Sound) ↔
      ((∃ line ∈ stderrLines stream, errorMark <:+: line) → 0 < tallied (stderrLines stream)) := by
  constructor
  · rintro hsound ⟨line, hline, herror⟩
    by_contra hcount
    obtain ⟨_, _, _, _, _, _, _, _, _, _, hrestored⟩ :=
      hsound (smooth stream) rfl (smooth_verified (not_lt.mp hcount))
    exact hrestored.quiet line hline herror
  · intro hcount env hstream hverified
    obtain ⟨input, settings, m, p, db, hinput, hsettings, hm, hp, hconnect, hstarted, hwait,
      herrors, hstate⟩ := env.reported_verified hverified
    obtain ⟨htables, hobjects, hwhole, howned, hconnects⟩ := verifyRestore_verified.mp hstate
    rw [hstream] at herrors
    -- an error line would have left a positive count, and the result failed
    have hquiet : ∀ line ∈ stderrLines env.pgRestore.stderr, ¬ errorMark <:+: line := by
      intro line hline herror
      have hpos := hcount ⟨line, hstream ▸ hline, herror⟩
      omega
    exact ⟨input, settings, m, p, db, hinput, hsettings, hm, hp, hconnect,
      ⟨hstarted, hwait, hquiet, htables, hobjects, hwhole, howned, hconnects⟩⟩

/-- A query fails, and the text of the query holds the words of a summary. -/
def maskedStream : Text :=
  ("pg_restore: error: could not execute query: ERROR:  permission denied\n" ++
   "Command was: COMMENT ON TABLE orders IS 'errors ignored on restore: 0';\n").toList

/-- The restore is reported as verified although an error was printed. -/
theorem masked_error_verified :
    (smooth maskedStream).reported.verified = true ∧ ¬ (smooth maskedStream).Sound := by
  have hline : ∃ line ∈ stderrLines (smooth maskedStream).pgRestore.stderr,
      errorMark <:+: line := by
    decide +kernel
  refine ⟨smooth_verified (by decide +kernel), ?_⟩
  rintro ⟨_, _, _, _, _, _, _, _, _, _, hrestored⟩
  obtain ⟨line, hmem, herror⟩ := hline
  exact hrestored.quiet line hmem herror

end Pgfy
