import Pgfy.Framework.Calendar
import Pgfy.Framework.Table
import Pgfy.Framework.Text

/-! # The layout of a backup store

    Backups live at `<prefix>/backups/<database>/<timestamp>/` as two objects,
    `archive.dump` and `manifest.json`. This module has the rules that are
    applied on every path: which segments are database folders and timestamp
    folders, how one complete listing is classified into entries, and when a
    manifest agrees with the place it is stored at.
-/

namespace Pgfy

open Calendar

/-- Errors as the source makes them: one of the sentinels that callers compare
    with, a text of its own, or whatever a driver reports for a call that
    failed. -/
inductive Err where
  | driver
  | message (text : String)
  | maintenance
  | jobBusy
  | projectNotFound
  | notDeletable
  | projectBusy
  | revisionConflict
  | setup
  | tokenActive
  | token
  | code
  | codeReused
  | codeLocked (seconds : ℤ)
  | credentialsChanged
  | roleMismatch
  | ownerMismatch
  | rotationIncomplete
deriving DecidableEq

/-- What an error reads as where it is recorded. -/
def Err.text : Err → String
  | driver => "the call failed"
  | message text => text
  | maintenance => "an update is in progress"
  | jobBusy => "another heavy job is already queued or running"
  | projectNotFound => "project not found"
  | notDeletable => "the project cannot be deleted while it is being set up"
  | projectBusy => "a job is running for this project"
  | revisionConflict => "policy revision conflict"
  | setup => "setup unavailable or token invalid"
  | tokenActive => "setup token has not expired; wait for expiry before replacing it"
  | token => "the sign-in step expired or is not valid"
  | code => "the code is not valid"
  | codeReused => "that code was already used; wait for the next one"
  | codeLocked _ => "too many wrong codes; wait before trying again"
  | credentialsChanged => "administrator credentials changed during sign-in"
  | roleMismatch => "a role with this name exists with different attributes"
  | ownerMismatch => "a database with this name exists with a different owner"
  | rotationIncomplete => "the password change will be finished automatically"

namespace Storage

/-! ### Segments -/

def archiveFile : Text := "archive.dump".toList

def manifestFile : Text := "manifest.json".toList

/-- A lower-case letter followed by at most 62 letters, digits or underscores. -/
def validDatabaseSegment (name : Text) : Bool :=
  match name with
  | [] => false
  | c :: rest => ('a' ≤ c && c ≤ 'z') && rest.length ≤ 62 &&
      rest.all (fun c => ('a' ≤ c && c ≤ 'z') || ('0' ≤ c && c ≤ '9') || c = '_')

/-- Eight digits, a `T`, six digits and a `Z`. -/
def directoryName (name : Text) : Bool :=
  match name with
  | [y1, y2, y3, y4, m1, m2, d1, d2, t, h1, h2, n1, n2, s1, s2, z] =>
    [y1, y2, y3, y4, m1, m2, d1, d2, h1, h2, n1, n2, s1, s2].all
      (fun c => '0' ≤ c && c ≤ '9') && t = 'T' && z = 'Z'
  | _ => false

/-- The time a timestamp folder names, if its date and time of day exist. -/
def parseTime (name : Text) : Option ℤ :=
  let year : ℤ := Text.number (name.take 4)
  let month := Text.number ((name.drop 4).take 2)
  let day : ℤ := Text.number ((name.drop 6).take 2)
  let hours := Text.number ((name.drop 9).take 2)
  let minutes := Text.number ((name.drop 11).take 2)
  let seconds := Text.number ((name.drop 13).take 2)
  if 1 ≤ month ∧ month ≤ 12 ∧ 1 ≤ day ∧ day ≤ (monthLengths year).getD (month - 1) 0 ∧
      hours < 24 ∧ minutes < 60 ∧ seconds < 60 then
    some (Date.toDays ⟨year, month, day⟩ * 86400 + hours * 3600 + minutes * 60 + seconds)
  else none

/-- Unix second of the zero time, which an unreadable timestamp is given. -/
def zeroTime : ℤ := -62135596800

/-- The time of a directory segment and whether it has the layout's shape. -/
def parseDirectorySegment (name : Text) : ℤ × Bool :=
  if directoryName name then
    match parseTime name with
    | some at_ => (at_, true)
    | none => (zeroTime, false)
  else (zeroTime, false)

/-- A year in four digits, more where it needs them. -/
def formatYear (y : ℤ) : Text :=
  if y < 0 then '-' :: Text.padded 4 y.natAbs else Text.padded 4 y.natAbs

/-- A time as the name of a timestamp folder: `20060102T150405Z`. -/
def formatTime (t : Instant) : Text :=
  let s := unix t
  let date := Date.ofDays (s / 86400)
  let second := (s % 86400).toNat
  formatYear date.year ++ Text.padded 2 date.month ++ Text.padded 2 date.day.toNat ++
    'T' :: Text.padded 2 (second / 3600) ++ Text.padded 2 (second / 60 % 60) ++
    Text.padded 2 (second % 60) ++ ['Z']

/-! ### Entries -/

/-- What a listing finds in a timestamp folder; only complete is recoverable. -/
inductive State where
  | complete
  | manifestOnly
  | archiveOnly
  | damaged
deriving DecidableEq

/-- One timestamp folder. -/
structure Entry where
  directory : Text
  manifestKey : Text
  archiveKey : Text
  takenAt : ℤ := zeroTime
  state : State := .damaged
  sizeBytes : ℤ := 0
deriving DecidableEq

/-- One listed object. -/
structure Object where
  key : Text
  size : ℤ
deriving DecidableEq

/-- What is known of a folder while a listing is read. -/
structure Found where
  name : Text
  archive : Bool := false
  manifest : Bool := false
  unexpected : Bool := false
  size : ℤ := 0
deriving DecidableEq

/-- Notes one file of a folder. -/
def Found.note (f : Found) (file : Text) (size : ℤ) : Found :=
  if file = archiveFile then { f with archive := true, size := size }
  else if file = manifestFile then { f with manifest := true }
  else { f with unexpected := true }

/-- Adds one object to the folders found so far. Deeper nesting is not the
    layout's and is skipped. -/
def addObject (root : Text) (directories : List Found) (object : Object) : List Found :=
  match Text.split '/' (Text.trimPrefix root object.key) with
  | [name, file] =>
    Table.upsert Found.name name
      (fun f => (f.getD { name := name }).note file object.size) directories
  | _ => directories

/-- The entry of a folder: damaged if its name or a file in it is not the
    layout's. -/
def Found.entry (root : Text) (f : Found) : Entry :=
  let directory := root ++ f.name
  { directory := directory
    manifestKey := directory ++ '/' :: manifestFile
    archiveKey := directory ++ '/' :: archiveFile
    takenAt := (parseDirectorySegment f.name).1
    sizeBytes := f.size
    state :=
      if !(parseDirectorySegment f.name).2 || f.unexpected then .damaged
      else if f.archive && f.manifest then .complete
      else if f.archive then .archiveOnly
      else .manifestOnly }

/-- Newest first; folders of one time by name, the greatest first. -/
def Entry.Before (a b : Entry) : Prop :=
  b.takenAt < a.takenAt ∨ (a.takenAt = b.takenAt ∧ b.directory ≤ a.directory)

instance (a b : Entry) : Decidable (a.Before b) := by unfold Entry.Before; infer_instance

def sortEntries (entries : List Entry) : List Entry := entries.insertionSort Entry.Before

/-- The entries of one complete listing below `root`. -/
def entriesFrom (root : Text) (objects : List Object) : List Entry :=
  sortEntries ((objects.foldl (addObject root) []).map (Found.entry root))

theorem mem_entriesFrom {root : Text} {objects : List Object} {e : Entry} :
    e ∈ entriesFrom root objects ↔ ∃ f ∈ objects.foldl (addObject root) [], f.entry root = e := by
  rw [entriesFrom, sortEntries, (List.perm_insertionSort _ _).mem_iff, List.mem_map]

@[simp] theorem Found.note_name (f : Found) (file : Text) (size : ℤ) :
    (f.note file size).name = f.name := by
  unfold Found.note
  split
  · rfl
  · split <;> rfl

theorem nodup_addObject {root : Text} {directories : List Found} (object : Object)
    (h : (directories.map Found.name).Nodup) :
    ((addObject root directories object).map Found.name).Nodup := by
  unfold addObject
  split
  · next name file _ =>
    apply Table.nodup_upsert _ h
    rw [Found.note_name]
    cases hfind : Table.find Found.name name directories with
    | none => rfl
    | some f => exact (Table.find_eq_some hfind).2
  · exact h

theorem nodup_foldl_addObject {root : Text} (objects : List Object) {directories : List Found}
    (h : (directories.map Found.name).Nodup) :
    ((objects.foldl (addObject root) directories).map Found.name).Nodup := by
  induction objects generalizing directories with
  | nil => exact h
  | cons object rest ih => exact ih (nodup_addObject object h)

/-- The entries of a listing are of different directories. -/
theorem nodup_entriesFrom (root : Text) (objects : List Object) :
    ((entriesFrom root objects).map Entry.manifestKey).Nodup := by
  have hnames : ((objects.foldl (addObject root) []).map Found.name).Nodup :=
    nodup_foldl_addObject objects List.nodup_nil
  rw [entriesFrom, sortEntries, ((List.perm_insertionSort _ _).map _).nodup_iff, List.map_map]
  -- the key of a folder determines its name
  rw [List.nodup_map_iff_inj_on hnames.of_map]
  intro f hf g hg hkey
  apply List.inj_on_of_nodup_map hnames hf hg
  have hdir : root ++ f.name = root ++ g.name := List.append_cancel_right hkey
  exact List.append_cancel_left hdir

/-! ### Manifests -/

structure ObjectCounts where
  sequences : ℤ
  views : ℤ
  functions : ℤ
  indexes : ℤ
  constraints : ℤ
deriving DecidableEq

/-- One table of a backup. -/
structure TableCount where
  schema : String
  name : String
  rows : ℤ
deriving DecidableEq

/-- What a manifest says about the backup it is published with. -/
structure Manifest where
  version : ℤ
  installationID : String
  projectID : String
  projectName : String
  dbName : Text
  postgresVersion : String
  createdAt : Instant
  archiveKey : Text
  tables : List TableCount := []
  manifestKey : Text := []
deriving DecidableEq

/-- The folder above an entry's own. -/
def Entry.parent (e : Entry) : Text :=
  match Text.cutLast '/' e.directory with
  | some (p, _) => if p = [] then e.directory else p
  | none => e.directory

/-- The last segment of an entry's folder. -/
def Entry.directoryName (e : Entry) : Text :=
  match Text.cutLast '/' e.directory with
  | some (_, name) => name
  | none => e.directory

/-- Whether a manifest agrees with the folder holding it. -/
def checkManifest (m : Manifest) (entry : Entry) : Except Err Unit :=
  if m.version ≠ 1 then .error (.message "unsupported manifest version")
  else if m.manifestKey ≠ entry.manifestKey then
    .error (.message ("manifest key \"" ++ String.ofList m.manifestKey ++
      "\" does not match its location"))
  else if m.archiveKey ≠ entry.archiveKey then
    .error (.message ("archive key \"" ++ String.ofList m.archiveKey ++
      "\" does not match its location"))
  else if !validDatabaseSegment m.dbName || !('/' :: m.dbName).isSuffixOf entry.parent then
    .error (.message ("database name \"" ++ String.ofList m.dbName ++
      "\" does not match its location"))
  else if formatTime m.createdAt ≠ entry.directoryName then
    .error (.message "manifest timestamp does not match its location")
  else .ok ()

end Storage

end Pgfy
