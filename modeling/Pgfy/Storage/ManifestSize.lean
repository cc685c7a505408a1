import Pgfy.Framework.Json
import Pgfy.Storage.Publication

/-! # A manifest fits its limit

    A manifest lists up to 5000 tables and is published as indented JSON. The
    encoder refuses a document of more than 8 MiB, and the reader reads one byte
    more than that and refuses what is longer. Names come from the database and
    may hold any bytes; each of them may take six in JSON. With the other fields
    bounded as those that fill them bound them, no manifest is near the limit.
-/

namespace Pgfy

open Calendar

namespace Storage

/-! ### The document -/

structure CountedTable where
  schema : Json.Bytes
  name : Json.Bytes
  rows : ℤ
deriving DecidableEq

/-- A manifest with all its fields, its strings as bytes. -/
structure ManifestDocument where
  version : ℤ
  installationID : Json.Bytes
  projectID : Json.Bytes
  projectName : Json.Bytes
  dbName : Json.Bytes
  postgresVersion : Json.Bytes
  createdAt : Instant
  archiveKey : Json.Bytes
  sha256 : Json.Bytes
  sizeBytes : ℤ
  /-- none for a nil slice -/
  tables : Option (List CountedTable)
  tablesTruncated : Bool
  objects : Option ObjectCounts
  manifestKey : Json.Bytes

/-- A text in UTF-8. -/
def utf8 (t : Text) : Json.Bytes := t.flatMap String.utf8EncodeChar

/-- A time in UTC as JSON has it, with the fraction of the second in as few digits
    as it needs. -/
def formatRFC3339 (t : Instant) : Text :=
  let date := Date.ofDays (unix t / 86400)
  let s := (unix t % 86400).toNat
  let fraction := (Text.padded 9 (t % second).toNat).rdropWhile (· == '0')
  formatYear date.year ++ '-' :: Text.padded 2 date.month ++ '-' :: Text.padded 2 date.day.toNat ++
    'T' :: Text.padded 2 (s / 3600) ++ ':' :: Text.padded 2 (s / 60 % 60) ++
    ':' :: Text.padded 2 (s % 60) ++ (if fraction = [] then [] else '.' :: fraction) ++ ['Z']

def CountedTable.value (t : CountedTable) : Json.Value :=
  Json.object [("schema", Json.string t.schema), ("name", Json.string t.name),
    ("rows", Json.integer t.rows)]

def ObjectCounts.value (c : ObjectCounts) : Json.Value :=
  Json.object [("sequences", Json.integer c.sequences), ("views", Json.integer c.views),
    ("functions", Json.integer c.functions), ("indexes", Json.integer c.indexes),
    ("constraints", Json.integer c.constraints)]

namespace ManifestDocument

def tablesValue (m : ManifestDocument) : Json.Value :=
  match m.tables with
  | none => Json.null
  | some ts => Json.array (ts.map CountedTable.value)

/-- The members that are left out when they are empty. -/
def optionalFields (m : ManifestDocument) : List (String × Json.Value) :=
  (if m.tablesTruncated then [("tables_truncated", Json.boolean true)] else []) ++
    (m.objects.toList.map (fun c => ("objects", c.value))) ++
    (if m.manifestKey = [] then [] else [("manifest_key", Json.string m.manifestKey)])

def fields (m : ManifestDocument) : List (String × Json.Value) :=
  [("version", Json.integer m.version), ("installation_id", Json.string m.installationID),
    ("project_id", Json.string m.projectID), ("project_name", Json.string m.projectName),
    ("db_name", Json.string m.dbName), ("postgres_version", Json.string m.postgresVersion),
    ("created_at", Json.string (utf8 (formatRFC3339 m.createdAt))),
    ("archive_key", Json.string m.archiveKey), ("sha256", Json.string m.sha256),
    ("size_bytes", Json.integer m.sizeBytes), ("tables", m.tablesValue)] ++ m.optionalFields

/-- `json.MarshalIndent` with one space; a time has a form in JSON only if its year
    has four digits. -/
def marshalIndent (m : ManifestDocument) : Except Err Json.Bytes :=
  if FourDigitYear m.createdAt then .ok (Json.object m.fields 0)
  else .error (.message ("json: error calling MarshalJSON for type time.Time: " ++
    "Time.MarshalJSON: year outside of range [0,9999]"))

/-- `EncodeManifest`. -/
def encode (m : ManifestDocument) : Except Err Json.Bytes :=
  match m.marshalIndent with
  | .error e => .error e
  | .ok b =>
    if maxManifestBytes < b.length then
      .error (.message "the manifest exceeds the size limit for this release")
    else .ok b

end ManifestDocument

/-- The reader's first steps: up to one byte more than the limit is read of a stored
    object, and more than the limit is refused. -/
def readManifestBytes (stored : Json.Bytes) : Except Err Json.Bytes :=
  let b := stored.take (maxManifestBytes + 1).toNat
  if maxManifestBytes < b.length then
    .error (.message "the manifest exceeds the size limit for this release")
  else .ok b

/-! ### The bounds of the fields -/

/-- `MaxTables`. -/
def maxTables : ℕ := 5000

def IsInt64 (n : ℤ) : Prop := -2 ^ 63 ≤ n ∧ n < 2 ^ 63

/-- The longest folder a request of 4096 bytes can set: what is not UTF-8 in it is
    decoded as U+FFFD, three bytes for each. -/
def maxFolderBytes : ℕ := 3 * 4096

/-- What the callers keep to. The version text is PostgreSQL's own. -/
structure ManifestDocument.Bounded (m : ManifestDocument) : Prop where
  tables : ∀ ts, m.tables = some ts → ts.length ≤ maxTables ∧
    ∀ t ∈ ts, t.schema.length ≤ 63 ∧ t.name.length ≤ 63 ∧ IsInt64 t.rows
  objects : ∀ c, m.objects = some c → IsInt64 c.sequences ∧ IsInt64 c.views ∧
    IsInt64 c.functions ∧ IsInt64 c.indexes ∧ IsInt64 c.constraints
  numbers : IsInt64 m.version ∧ IsInt64 m.sizeBytes
  projectName : m.projectName.length ≤ 64
  identifiers : m.installationID.length ≤ 64 ∧ m.projectID.length ≤ 64 ∧ m.sha256.length ≤ 64
  postgresVersion : m.postgresVersion.length ≤ 65536
  createdAt : FourDigitYear m.createdAt
  /-- the keys are those of a backup of its database in some configured folder -/
  keys : ∃ (s : Settings) (db : Text), Text.byteLength s.folder ≤ maxFolderBytes ∧
    Text.byteLength db ≤ 64 ∧ m.dbName = utf8 db ∧
    m.archiveKey = utf8 (s.backupKey db m.createdAt ++ '/' :: archiveFile) ∧
    (m.manifestKey = [] ∨
      m.manifestKey = utf8 (s.backupKey db m.createdAt ++ '/' :: manifestFile))

/-! ### Lengths -/

theorem length_utf8 (t : Text) : (utf8 t).length = Text.byteLength t := by
  simp [utf8, Text.byteLength, List.length_flatMap]

/-- A character has at most four bytes. -/
theorem length_utf8_le (t : Text) : (utf8 t).length ≤ 4 * t.length := by
  rw [length_utf8]
  induction t with
  | nil => exact Nat.le_refl 0
  | cons c t ih =>
    have hchar := Char.utf8Size_le_four c
    rw [Text.byteLength_cons, List.length_cons]
    omega

theorem length_formatRFC3339_le {t : Instant} (h : FourDigitYear t) :
    (formatRFC3339 t).length ≤ 30 := by
  obtain ⟨hyear, hyear'⟩ := h
  obtain ⟨hmonth, hmonth', hday, hday'⟩ := Date.ofDays_valid (unix t / 86400)
  have hlen := monthLengths_le (Date.ofDays (unix t / 86400)).year
    ((Date.ofDays (unix t / 86400)).month - 1)
  have hsec := (daySeconds t).1
  have htwo : ∀ n < 100, (Text.padded 2 n).length = 2 := fun n hn =>
    Text.length_padded (by decide) hn
  have hY : (formatYear (Date.ofDays (unix t / 86400)).year).length = 4 := by
    unfold yearAt at hyear hyear'
    rw [formatYear, if_neg (not_lt.mpr hyear)]
    refine Text.length_padded (by decide) ?_
    omega
  -- nine digits and the point at most
  have hfraction : (Text.padded 9 (t % second).toNat).length = 9 := by
    refine Text.length_padded (by decide) ?_
    unfold second
    omega
  have hdropped := (List.rdropWhile_prefix (· == '0')
    (Text.padded 9 (t % second).toNat)).length_le
  unfold formatRFC3339
  dsimp only
  simp only [List.length_append, List.length_cons, List.length_nil, hY,
    htwo _ (show (Date.ofDays (unix t / 86400)).month < 100 by omega),
    htwo _ (show (Date.ofDays (unix t / 86400)).day.toNat < 100 by omega),
    htwo _ (show (unix t % 86400).toNat / 3600 < 100 by omega),
    htwo _ (show (unix t % 86400).toNat / 60 % 60 < 100 by omega),
    htwo _ (show (unix t % 86400).toNat % 60 < 100 by omega)]
  split
  · simp
  · rw [List.length_cons]
    omega

theorem length_formatTime {t : Instant} (h : FourDigitYear t) : (formatTime t).length = 16 := by
  have hshape := (formatTime_fields h).1
  unfold directoryName at hshape
  split at hshape
  · next heq =>
    rw [heq]
    rfl
  · cases hshape

theorem byteLength_trim_le (c : Char) (t : Text) :
    Text.byteLength (Text.trim c t) ≤ Text.byteLength t := by
  unfold Text.trim
  obtain ⟨front, hfront⟩ := List.dropWhile_suffix (l := t) (· == c)
  obtain ⟨back, hback⟩ := List.rdropWhile_prefix (· == c) (t.dropWhile (· == c))
  have hlength := congrArg Text.byteLength hfront
  rw [← hback, Text.byteLength_append, Text.byteLength_append] at hlength
  omega

/-- The key of a file of a backup. -/
theorem length_key_le {s : Settings} {db file : Text} {t : Instant}
    (hs : Text.byteLength s.folder ≤ maxFolderBytes) (hdb : Text.byteLength db ≤ 64)
    (hfile : Text.byteLength file ≤ 13) (ht : FourDigitYear t) :
    (utf8 (s.backupKey db t ++ '/' :: file)).length ≤ 12500 := by
  have hjoin := Text.byteLength_joinPath_le
    [Text.trim '/' s.folder, Settings.backupsSegment, db, formatTime t]
  have htrim := byteLength_trim_le '/' s.folder
  have htime := length_utf8_le (formatTime t)
  have hsegment : Text.byteLength Settings.backupsSegment = 7 := by decide
  have hslash : Char.utf8Size '/' = 1 := rfl
  rw [length_utf8, length_formatTime ht] at htime
  simp only [Text.pieceBytes_cons, show Text.pieceBytes [] = 0 from rfl] at hjoin
  rw [length_utf8, Text.byteLength_append, Text.byteLength_cons]
  unfold maxFolderBytes at hs
  unfold Settings.backupKey Settings.key
  omega

theorem length_int64_le {n : ℤ} (h : IsInt64 n) (depth : ℕ) :
    (Json.integer n depth).length ≤ 20 := by
  obtain ⟨hlow, hhigh⟩ := h
  refine Json.length_integer_le (k := 19) (by decide) ?_ depth
  omega

/-- A table takes 830 bytes at most. -/
theorem length_table_le {t : CountedTable} (hschema : t.schema.length ≤ 63)
    (hname : t.name.length ≤ 63) (hrows : IsInt64 t.rows) : (t.value 2).length ≤ 830 := by
  have hobject := Json.length_object_le [("schema", Json.string t.schema),
    ("name", Json.string t.name), ("rows", Json.integer t.rows)] 2
  have hkeys : (Json.quote (Json.ascii "schema")).length = 8 ∧
      (Json.quote (Json.ascii "name")).length = 6 ∧
      (Json.quote (Json.ascii "rows")).length = 6 := by decide
  have hschema' := Json.length_quote_le t.schema
  have hname' := Json.length_quote_le t.name
  have hrows' := length_int64_le hrows (2 + 1)
  simp only [List.map_cons, List.map_nil, List.sum_cons, List.sum_nil, Json.memberBytes,
    Json.string, hkeys.1, hkeys.2.1, hkeys.2.2] at hobject
  unfold CountedTable.value
  omega

/-- A member whose key has at most 20 letters and whose value has at most `k` bytes. -/
theorem memberBytes_le {key : String} {v : Json.Value} {depth k : ℕ}
    (hkey : (Json.ascii key).length ≤ 20) (hv : (v depth).length ≤ k) :
    Json.memberBytes depth (key, v) ≤ k + depth + 126 := by
  have hquote := Json.length_quote_le (Json.ascii key)
  simp only [Json.memberBytes]
  omega

theorem length_objects_le {c : ObjectCounts} (h : IsInt64 c.sequences ∧ IsInt64 c.views ∧
    IsInt64 c.functions ∧ IsInt64 c.indexes ∧ IsInt64 c.constraints) :
    (c.value 1).length ≤ 1000 := by
  obtain ⟨hsequences, hviews, hfunctions, hindexes, hconstraints⟩ := h
  have hobject := Json.length_object_le [("sequences", Json.integer c.sequences),
    ("views", Json.integer c.views), ("functions", Json.integer c.functions),
    ("indexes", Json.integer c.indexes), ("constraints", Json.integer c.constraints)] 1
  have hmember : ∀ (key : String) (n : ℤ), (Json.ascii key).length ≤ 20 → IsInt64 n →
      Json.memberBytes 2 (key, Json.integer n) ≤ 148 := fun key n hkey hn =>
    memberBytes_le hkey (length_int64_le hn 2)
  have h₁ := hmember "sequences" c.sequences (by decide) hsequences
  have h₂ := hmember "views" c.views (by decide) hviews
  have h₃ := hmember "functions" c.functions (by decide) hfunctions
  have h₄ := hmember "indexes" c.indexes (by decide) hindexes
  have h₅ := hmember "constraints" c.constraints (by decide) hconstraints
  simp only [List.map_cons, List.map_nil, List.sum_cons, List.sum_nil, Nat.reduceAdd] at hobject
  unfold ObjectCounts.value
  omega

namespace ManifestDocument

variable {m : ManifestDocument}

theorem length_tablesValue_le (h : m.Bounded) : (m.tablesValue 1).length ≤ 4170004 := by
  unfold tablesValue
  cases htables : m.tables with
  | none =>
    change (Json.ascii "null").length ≤ _
    decide
  | some ts =>
    obtain ⟨hcount, hall⟩ := h.tables ts htables
    have harray := @Json.length_array_le (ts.map CountedTable.value) 1 830 (by
      intro x hx
      obtain ⟨t, ht, rfl⟩ := List.mem_map.mp hx
      obtain ⟨hschema, hname, hrows⟩ := hall t ht
      exact length_table_le hschema hname hrows)
    have hmul := Nat.mul_le_mul_right (830 + 1 + 3) hcount
    rw [List.length_map] at harray
    unfold maxTables at hmul
    show (Json.array (ts.map CountedTable.value) 1).length ≤ 4170004
    omega

theorem memberBytes_optional_le (h : m.Bounded) :
    (m.optionalFields.map (Json.memberBytes 1)).sum ≤ 77000 := by
  obtain ⟨s, db, hs, hdb, -, -, hkey⟩ := h.keys
  have htruncated : ((if m.tablesTruncated then [("tables_truncated", Json.boolean true)]
      else []).map (Json.memberBytes 1)).sum ≤ 131 := by
    split
    · have hone := @memberBytes_le "tables_truncated" (Json.boolean true) 1 4 (by decide)
        (by decide)
      simpa using hone
    · simp
  have hobjects : ((m.objects.toList.map (fun c => ("objects", c.value))).map
      (Json.memberBytes 1)).sum ≤ 1127 := by
    cases hcounts : m.objects with
    | none => simp
    | some c =>
      have hone := @memberBytes_le "objects" c.value 1 1000 (by decide)
        (length_objects_le (h.objects c hcounts))
      simpa using hone
  have hmanifest : ((if m.manifestKey = [] then [] else
      [("manifest_key", Json.string m.manifestKey)]).map (Json.memberBytes 1)).sum ≤ 75129 := by
    split
    · simp
    next hne =>
    have hlength : m.manifestKey.length ≤ 12500 := by
      rw [hkey.resolve_left hne]
      exact length_key_le hs hdb (by decide) h.createdAt
    have hquote := Json.length_quote_le m.manifestKey
    have hone := @memberBytes_le "manifest_key" (Json.string m.manifestKey) 1 75002 (by decide)
      (hquote.trans (by omega))
    simpa using hone
  simp only [optionalFields, List.map_append, List.sum_append]
  omega

/-- The whole document. -/
theorem length_document_le (h : m.Bounded) :
    (Json.object m.fields 0).length ≤ maxManifestBytes := by
  obtain ⟨s, db, hs, hdb, hname, harchive, -⟩ := h.keys
  have hobject := Json.length_object_le m.fields 0
  have hoptional := memberBytes_optional_le h
  have hnumber : ∀ (key : String) (n : ℤ), (Json.ascii key).length ≤ 20 → IsInt64 n →
      Json.memberBytes 1 (key, Json.integer n) ≤ 147 := fun key n hkey hn =>
    memberBytes_le hkey (length_int64_le hn 1)
  have htext : ∀ (key : String) (b : Json.Bytes) (k : ℕ), (Json.ascii key).length ≤ 20 →
      b.length ≤ k → Json.memberBytes 1 (key, Json.string b) ≤ 6 * k + 129 := by
    intro key b k hkey hb
    have hquote := Json.length_quote_le b
    have hvalue : (Json.string b 1).length ≤ 6 * k + 2 := hquote.trans (by omega)
    exact memberBytes_le hkey hvalue
  have h₁ := hnumber "version" m.version (by decide) h.numbers.1
  have h₂ := htext "installation_id" m.installationID 64 (by decide) h.identifiers.1
  have h₃ := htext "project_id" m.projectID 64 (by decide) h.identifiers.2.1
  have h₄ := htext "project_name" m.projectName 64 (by decide) h.projectName
  have h₅ := htext "db_name" m.dbName 64 (by decide) (by rw [hname, length_utf8]; exact hdb)
  have h₆ := htext "postgres_version" m.postgresVersion 65536 (by decide) h.postgresVersion
  have hcreated : (utf8 (formatRFC3339 m.createdAt)).length ≤ 120 := by
    have hutf8 := length_utf8_le (formatRFC3339 m.createdAt)
    have hlength := length_formatRFC3339_le h.createdAt
    omega
  have h₇ := htext "created_at" (utf8 (formatRFC3339 m.createdAt)) 120 (by decide) hcreated
  have h₈ := htext "archive_key" m.archiveKey 12500 (by decide) (by
    rw [harchive]
    exact length_key_le hs hdb (by decide) h.createdAt)
  have h₉ := htext "sha256" m.sha256 64 (by decide) h.identifiers.2.2
  have h₁₀ := hnumber "size_bytes" m.sizeBytes (by decide) h.numbers.2
  have h₁₁ : Json.memberBytes 1 ("tables", m.tablesValue) ≤ 4170131 :=
    memberBytes_le (by decide) (length_tablesValue_le h)
  have hsum : (m.fields.map (Json.memberBytes (0 + 1))).sum ≤ 5000000 := by
    simp only [fields, List.map_append, List.sum_append, List.map_cons, List.map_nil,
      List.sum_cons, List.sum_nil, Nat.zero_add]
    omega
  have hlimit : maxManifestBytes = 8388608 := by decide
  omega

end ManifestDocument

/-- Every manifest within the callers' bounds is encoded, within the limit, and what
    is stored of it is read whole. -/
theorem manifest_fits_limit {m : ManifestDocument} (h : m.Bounded) :
    ∃ b, m.marshalIndent = .ok b ∧ b.length ≤ maxManifestBytes ∧ m.encode = .ok b ∧
      readManifestBytes b = .ok b := by
  have hlength := m.length_document_le h
  have hmarshal : m.marshalIndent = .ok (Json.object m.fields 0) := if_pos h.createdAt
  refine ⟨_, hmarshal, hlength, ?_, ?_⟩
  · unfold ManifestDocument.encode
    rw [hmarshal]
    exact if_neg (not_lt.mpr hlength)
  · have hwhole : (Json.object m.fields 0).take (maxManifestBytes + 1).toNat =
        Json.object m.fields 0 := List.take_of_length_le (by omega)
    unfold readManifestBytes
    rw [hwhole]
    exact if_neg (not_lt.mpr hlength)

/-- A manifest of one table whose names have bytes that take six each. -/
def smallManifest : ManifestDocument where
  version := 1
  installationID := utf8 "0123456789abcdef0123456789abcdef".toList
  projectID := utf8 "prj_0123456789ab".toList
  projectName := utf8 "shop".toList
  dbName := utf8 "app_0123456789ab".toList
  postgresVersion := utf8 "18.1".toList
  createdAt := 0
  archiveKey := utf8 "backups/app_0123456789ab/19700101T000000Z/archive.dump".toList
  sha256 := List.replicate 64 0x30
  sizeBytes := 1
  tables := some [⟨List.replicate 63 0x3C, List.replicate 63 0xFF, 2 ^ 63 - 1⟩]
  tablesTruncated := false
  objects := some ⟨0, 0, 0, 1, 1⟩
  manifestKey := utf8 "backups/app_0123456789ab/19700101T000000Z/manifest.json".toList

theorem manifest_fits_limit_small :
    ∃ b, smallManifest.marshalIndent = .ok b ∧ b.length ≤ maxManifestBytes ∧
      smallManifest.encode = .ok b ∧ readManifestBytes b = .ok b := by
  refine manifest_fits_limit ⟨?_, ?_, ?_, ?_, ?_, ?_, ?_, ?_⟩
  · rintro ts hts
    obtain rfl := Option.some.inj hts
    unfold IsInt64
    decide
  · rintro c hc
    obtain rfl := Option.some.inj hc
    unfold IsInt64
    decide
  · unfold IsInt64
    decide
  · decide
  · decide
  · decide
  · decide +kernel
  · exact ⟨⟨[], [], [], .versioning⟩, "app_0123456789ab".toList, by decide, by decide, rfl,
      by decide +kernel, Or.inr (by decide +kernel)⟩

end Storage

end Pgfy
