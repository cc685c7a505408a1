import Pgfy.Storage.Layout

/-! # Stores and their keys

    A store is an endpoint, a bucket and a folder in it. Its identity is what
    the reconciled view is kept under: the source hashes it, and the hash is
    taken as injective here, so the text itself stands for it.
-/

namespace Pgfy

open Calendar

namespace Storage

/-- How the operator says the bucket is protected against deletion. -/
inductive Protection where
  | versioning
  | acknowledged
deriving DecidableEq

/-- What the provider says about keeping versions of deleted objects. -/
inductive Versioning where
  | enabled
  | disabled
  | unsupported
deriving DecidableEq

structure Settings where
  endpoint : Text
  bucket : Text
  folder : Text
  bucketProtection : Protection
deriving DecidableEq

namespace Settings

/-- Identifies one store. -/
def target (s : Settings) : Text :=
  s.endpoint.map Char.toLower ++ '|' :: s.bucket ++ '|' :: Text.trim '/' s.folder

/-- An object key below the configured folder. -/
def key (s : Settings) (parts : List Text) : Text :=
  Text.joinPath (Text.trim '/' s.folder :: parts)

def backupsSegment : Text := "backups".toList

/-- The folder all database folders are in. -/
def backupsRoot (s : Settings) : Text := s.key [backupsSegment] ++ ['/']

/-- The folder of one database. -/
def databaseRoot (s : Settings) (dbName : Text) : Text := s.key [backupsSegment, dbName] ++ ['/']

/-- Where one backup's objects live. -/
def backupKey (s : Settings) (dbName : Text) (at_ : Instant) : Text :=
  s.key [backupsSegment, dbName, formatTime at_]

/-- Rebuilds an entry from a manifest key. -/
def entryFor (s : Settings) (manifestKey : Text) : Except Err Entry :=
  let root := s.backupsRoot
  let refused : Except Err Entry :=
    .error (.message "not a backup manifest in the configured folder")
  match Text.split '/' (Text.trimPrefix root manifestKey) with
  | [db, dir, file] =>
    if !root.isPrefixOf manifestKey || file ≠ manifestFile || !validDatabaseSegment db then refused
    else if !(parseDirectorySegment dir).2 then refused
    else
      let directory := root ++ db ++ '/' :: dir
      .ok { directory := directory
            manifestKey := manifestKey
            archiveKey := directory ++ '/' :: archiveFile
            takenAt := (parseDirectorySegment dir).1 }
  | _ => refused

end Settings

/-- What reading an object gives: its size, and the manifest its bytes decode
    to, if they do. -/
structure Content where
  size : ℤ
  manifest : Option Manifest
deriving DecidableEq

/-- Objects above this size are not read as manifests. -/
def maxManifestBytes : ℤ := 8 * 2 ^ 20

/-- What the client makes of the bytes it read under `key`. -/
def Settings.decodeManifest (s : Settings) (key : Text) (c : Content) : Except Err Manifest :=
  match s.entryFor key with
  | .error e => .error e
  | .ok entry =>
    if maxManifestBytes < c.size then
      .error (.message "the manifest exceeds the size limit for this release")
    else
      match c.manifest with
      | none => .error (.message "the manifest is unreadable or from an unsupported version")
      | some m =>
        match checkManifest { m with manifestKey := key } entry with
        | .ok _ => .ok { m with manifestKey := key }
        | .error _ => .error (.message
          "the backup's manifest does not match its location and will not be restored")

end Storage

end Pgfy
