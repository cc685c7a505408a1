import Pgfy.Storage.Listing

/-! # A published backup is found again

    A backup job names its folder after the second it publishes at and writes
    an archive and a manifest there. The reader splits keys and parses folder
    names in its own way; here the two are shown to agree: the timestamp reads
    back as the second it was made from, the manifest passes the reader's
    checks, a listing shows the folder as one complete entry, and no two
    seconds or databases share a folder.
-/

namespace Pgfy

open Calendar

namespace Storage

/-! ### Timestamps -/

/-- The calendar year of a time. -/
def yearAt (t : Instant) : ℤ := (Date.ofDays (unix t / 86400)).year

/-- Its year is written with four digits. -/
def FourDigitYear (t : Instant) : Prop := 0 ≤ yearAt t ∧ yearAt t ≤ 9999

instance (t : Instant) : Decidable (FourDigitYear t) := inferInstanceAs (Decidable (_ ∧ _))

/-- A timestamp of six fields of digits: it has the shape of one, and the
    fields are found where the reader looks for them. -/
theorem timestamp_fields {y m d h n s : Text} (hy : y.length = 4) (hm : m.length = 2)
    (hd : d.length = 2) (hh : h.length = 2) (hn : n.length = 2) (hs : s.length = 2)
    (hdigit : ∀ c ∈ y ++ m ++ d ++ h ++ n ++ s, c.isDigit = true) {name : Text}
    (hname : name = y ++ m ++ d ++ 'T' :: h ++ n ++ s ++ ['Z']) :
    directoryName name = true ∧ name.take 4 = y ∧ (name.drop 4).take 2 = m ∧
      (name.drop 6).take 2 = d ∧ (name.drop 9).take 2 = h ∧ (name.drop 11).take 2 = n ∧
      (name.drop 13).take 2 = s := by
  obtain ⟨m₁, m₂, rfl⟩ := List.length_eq_two.mp hm
  obtain ⟨d₁, d₂, rfl⟩ := List.length_eq_two.mp hd
  obtain ⟨h₁, h₂, rfl⟩ := List.length_eq_two.mp hh
  obtain ⟨n₁, n₂, rfl⟩ := List.length_eq_two.mp hn
  obtain ⟨s₁, s₂, rfl⟩ := List.length_eq_two.mp hs
  match y, hy with
  | [y₁, y₂, y₃, y₄], _ =>
    subst hname
    refine ⟨?_, rfl, rfl, rfl, rfl, rfl, rfl⟩
    have hrange : ∀ c : Char, c.isDigit = true → ('0' ≤ c && c ≤ '9') = true := by
      intro c hc
      simpa [Char.isDigit, Char.le_def] using hc
    simp only [directoryName, List.cons_append, List.nil_append, decide_true, Bool.and_true,
      List.all_eq_true]
    intro c hc
    exact hrange c (hdigit c hc)

section
variable {t : Instant}

/-- The seconds of a day, by hours, minutes and seconds. -/
theorem daySeconds (t : Instant) : (unix t % 86400).toNat < 86400 ∧
    unix t = unix t / 86400 * 86400 + (unix t % 86400).toNat := by
  omega

theorem formatTime_fields (h : FourDigitYear t) :
    directoryName (formatTime t) = true ∧
      (Text.number ((formatTime t).take 4) : ℤ) = yearAt t ∧
      Text.number (((formatTime t).drop 4).take 2) = (Date.ofDays (unix t / 86400)).month ∧
      (Text.number (((formatTime t).drop 6).take 2) : ℤ) = (Date.ofDays (unix t / 86400)).day ∧
      Text.number (((formatTime t).drop 9).take 2) = (unix t % 86400).toNat / 3600 ∧
      Text.number (((formatTime t).drop 11).take 2) = (unix t % 86400).toNat / 60 % 60 ∧
      Text.number (((formatTime t).drop 13).take 2) = (unix t % 86400).toNat % 60 := by
  obtain ⟨hyear, hyear'⟩ := h
  obtain ⟨hmonth, hmonth', hday, hday'⟩ := Date.ofDays_valid (unix t / 86400)
  have hlen := monthLengths_le (Date.ofDays (unix t / 86400)).year
    ((Date.ofDays (unix t / 86400)).month - 1)
  have hsec := (daySeconds t).1
  have hY : formatYear (yearAt t) = Text.padded 4 (yearAt t).natAbs := if_neg (not_lt.mpr hyear)
  obtain ⟨hshape, h₁, h₂, h₃, h₄, h₅, h₆⟩ := timestamp_fields
    (Text.length_padded (by decide) (show (yearAt t).natAbs < 10 ^ 4 by omega))
    (Text.length_padded (by decide) (show (Date.ofDays (unix t / 86400)).month < 10 ^ 2 by omega))
    (Text.length_padded (by decide)
      (show (Date.ofDays (unix t / 86400)).day.toNat < 10 ^ 2 by omega))
    (Text.length_padded (by decide) (show (unix t % 86400).toNat / 3600 < 10 ^ 2 by omega))
    (Text.length_padded (by decide) (show (unix t % 86400).toNat / 60 % 60 < 10 ^ 2 by omega))
    (Text.length_padded (by decide) (show (unix t % 86400).toNat % 60 < 10 ^ 2 by omega))
    (by
      intro c hc
      simp only [List.mem_append] at hc
      rcases hc with ((((hc | hc) | hc) | hc) | hc) | hc <;> exact Text.isDigit_of_mem_padded hc)
    (show formatTime t = _ by rw [← hY]; rfl)
  rw [h₁, h₂, h₃, h₄, h₅, h₆]
  simp only [Text.number_padded]
  refine ⟨hshape, by omega, trivial, by omega, trivial, trivial, trivial⟩

/-- A time is parsed back to its second. -/
theorem parseDirectorySegment_formatTime (h : FourDigitYear t) :
    parseDirectorySegment (formatTime t) = (unix t, true) := by
  obtain ⟨hshape, hy, hm, hd, hh, hn, hs⟩ := formatTime_fields h
  obtain ⟨hmonth, hmonth', hday, hday'⟩ := Date.ofDays_valid (unix t / 86400)
  obtain ⟨hsec, hsplit⟩ := daySeconds t
  have hdays := Date.toDays_ofDays (unix t / 86400)
  have hparse : parseTime (formatTime t) = some (unix t) := by
    unfold parseTime
    rw [hy, hm, hd, hh, hn, hs]
    rw [if_pos ⟨hmonth, hmonth', hday, hday', by omega, by omega, by omega⟩]
    refine congrArg some ?_
    change (Date.ofDays (unix t / 86400)).toDays * 86400 + _ + _ + _ = _
    rw [hdays]
    omega
  rw [parseDirectorySegment, if_pos hshape, hparse]

/-- A name that is read as a time has four digits for the year. -/
theorem fourDigitYear_of_parse {name : Text} {at_ : ℤ}
    (h : parseDirectorySegment name = (at_, true)) : FourDigitYear (ofUnix at_) := by
  have hshape : directoryName name = true := by
    by_contra hno
    rw [parseDirectorySegment, if_neg hno] at h
    cases h
  have hyear : Text.number (name.take 4) ≤ 9999 := by
    have hlt : Text.number (name.take 4) < 10 ^ (name.take 4).length := by
      refine Text.number_lt (fun c hc => ?_)
      unfold directoryName at hshape
      split at hshape
      · simp only [Bool.and_eq_true, List.all_eq_true, decide_eq_true_eq] at hshape
        refine (hshape.1.1 c ?_).2
        simp only [List.take_succ_cons, List.take_zero] at hc
        exact List.mem_append_left _ hc
      · cases hshape
    have hlen : (name.take 4).length ≤ 4 := by simp
    have hpow : 10 ^ (name.take 4).length ≤ 10 ^ 4 := Nat.pow_le_pow_right (by decide) hlen
    omega
  rw [parseDirectorySegment, if_pos hshape] at h
  unfold parseTime at h
  dsimp only at h
  split at h
  · next at' hat =>
    split at hat
    · next hvalid =>
      obtain ⟨hmonth, hmonth', hday, hday', hh, hn, hs⟩ := hvalid
      have heq : at_ = at' := (congrArg Prod.fst h).symm
      have hval := Option.some.inj hat
      have hdays : unix (ofUnix at_) / 86400 = Date.toDays ⟨Text.number (name.take 4),
          Text.number ((name.drop 4).take 2), Text.number ((name.drop 6).take 2)⟩ := by
        rw [unix_ofUnix, heq]
        omega
      have hofDays := Date.year_ofDays_toDays (d := ⟨Text.number (name.take 4),
        Text.number ((name.drop 4).take 2), Text.number ((name.drop 6).take 2)⟩)
        hmonth hmonth' hday hday'
      unfold FourDigitYear yearAt
      rw [hdays, hofDays]
      constructor <;> simp only <;> omega
    · cases hat
  · cases h

theorem formatTime_inj {t' : Instant} (h : FourDigitYear t) (h' : FourDigitYear t')
    (heq : formatTime t = formatTime t') : unix t = unix t' := by
  have hparse := parseDirectorySegment_formatTime h
  rw [heq, parseDirectorySegment_formatTime h'] at hparse
  exact (congrArg Prod.fst hparse).symm

/-- A name of a timestamp's shape is a segment of a path. -/
theorem segment_of_directoryName {name : Text} (h : directoryName name = true) :
    Text.Segment name := by
  unfold directoryName at h
  split at h
  · next y₁ y₂ y₃ y₄ m₁ m₂ d₁ d₂ t h₁ h₂ n₁ n₂ s₁ s₂ z =>
    simp only [Bool.and_eq_true, List.all_eq_true, decide_eq_true_eq] at h
    obtain ⟨⟨hdigit, rfl⟩, rfl⟩ := h
    refine ⟨by simp, fun hslash => ?_, by simp, by simp⟩
    have hmem : '/' ∈ [y₁, y₂, y₃, y₄, m₁, m₂, d₁, d₂, h₁, h₂, n₁, n₂, s₁, s₂] := by
      have hT : '/' ≠ 'T' := by decide
      have hZ : '/' ≠ 'Z' := by decide
      simpa [hT, hZ] using hslash
    exact absurd (hdigit '/' hmem).1 (by decide)
  · cases h

theorem segment_formatTime (h : FourDigitYear t) : Text.Segment (formatTime t) :=
  segment_of_directoryName (formatTime_fields h).1

/-! ### Folders -/

variable {s : Settings} {d d' : Text} {t' : Instant}

/-- The folder of a backup is in the folder of its database. -/
theorem backupKey_eq (hd : validDatabaseSegment d = true) (ht : FourDigitYear t) :
    s.backupKey d t = s.databaseRoot d ++ formatTime t := by
  have hjoin := Text.joinPath_snoc [Text.trim '/' s.folder, Settings.backupsSegment]
    (segment_of_valid hd) (segment_formatTime ht)
  simp only [List.cons_append, List.nil_append] at hjoin
  show Text.joinPath _ = Text.joinPath _ ++ ['/'] ++ formatTime t
  rw [hjoin]
  simp

theorem backupKey_file (hd : validDatabaseSegment d = true) (ht : FourDigitYear t) (file : Text) :
    s.backupKey d t ++ '/' :: file = fileKey s d (formatTime t) file := by
  rw [backupKey_eq hd ht, fileKey]

/-- Different databases or seconds have different folders. -/
theorem backupKey_inj (hd : validDatabaseSegment d = true) (ht : FourDigitYear t)
    (hd' : validDatabaseSegment d' = true) (ht' : FourDigitYear t')
    (h : s.backupKey d t = s.backupKey d' t') : d = d' ∧ unix t = unix t' := by
  have hfile := congrArg (· ++ '/' :: manifestFile) h
  simp only [backupKey_file hd ht, backupKey_file hd' ht'] at hfile
  obtain ⟨hdb, hname, -⟩ := fileKey_inj hd hd' (segment_formatTime ht).slash
    (segment_formatTime ht').slash (by decide) (by decide) hfile
  exact ⟨hdb, formatTime_inj ht ht' hname⟩

end

/-! ### Manifests -/

/-- The manifest a backup job builds at `now`. -/
def newManifest (s : Settings) (installationID projectID projectName : String) (dbName : Text)
    (postgresVersion : String) (tables : List TableCount) (now : Instant) : Manifest :=
  -- the job's time is cut to the second
  let at_ := ofUnix (unix now)
  let base := s.backupKey dbName at_
  { version := 1
    installationID := installationID
    projectID := projectID
    projectName := projectName
    dbName := dbName
    postgresVersion := postgresVersion
    createdAt := at_
    archiveKey := base ++ '/' :: archiveFile
    manifestKey := base ++ '/' :: manifestFile
    tables := tables }

/-- The object a manifest is published as, if it is not above the limit for reading it. -/
def encodeManifest (m : Manifest) (size : ℤ) : Except Err Content :=
  if maxManifestBytes < size then
    .error (.message "the manifest exceeds the size limit for this release")
  else .ok ⟨size, some m⟩

theorem encodeManifest_ok {m : Manifest} {size : ℤ} {c : Content}
    (h : encodeManifest m size = .ok c) : ¬ maxManifestBytes < c.size ∧ c.manifest = some m := by
  unfold encodeManifest at h
  split at h
  · cases h
  · next hle =>
    cases h
    exact ⟨hle, rfl⟩

theorem formatTime_congr {t t' : Instant} (h : unix t = unix t') :
    formatTime t = formatTime t' := by
  unfold formatTime
  rw [h]

theorem fourDigitYear_congr {t t' : Instant} (h : unix t = unix t') :
    FourDigitYear t ↔ FourDigitYear t' := by
  unfold FourDigitYear yearAt
  rw [h]

/-- A manifest that names its place and time passes the check there. -/
theorem checkManifest_of_place {m : Manifest} {entry : Entry} (root : Text) {t : Instant}
    (hd : validDatabaseSegment m.dbName = true) (ht : FourDigitYear t)
    (hversion : m.version = 1) (hmanifest : m.manifestKey = entry.manifestKey)
    (harchive : m.archiveKey = entry.archiveKey) (hat : formatTime m.createdAt = formatTime t)
    (hdir : entry.directory = root ++ '/' :: m.dbName ++ '/' :: formatTime t) :
    checkManifest m entry = .ok () := by
  have hcut : Text.cutLast '/' entry.directory =
      some (root ++ '/' :: m.dbName, formatTime t) := by
    rw [hdir]
    exact Text.cutLast_append _ (segment_formatTime ht).slash
  have hparent : entry.parent = root ++ '/' :: m.dbName := by
    rw [Entry.parent, hcut]
    exact if_neg (by simp)
  have hname : entry.directoryName = formatTime t := by
    rw [Entry.directoryName, hcut]
  unfold checkManifest
  rw [if_neg (by simp [hversion]), if_neg (by simp [hmanifest]), if_neg (by simp [harchive]),
    if_neg, if_neg (by simp [hname, hat])]
  rw [hd, hparent]
  simp

/-! ### What the reader finds -/

section
variable (s : Settings) (installationID projectID projectName : String) {d : Text}
  (postgresVersion : String) (tables : List TableCount) {now : Instant}

/-- The manifest's key leads to its folder, where the manifest passes the check. -/
theorem newManifest_checked (hd : validDatabaseSegment d = true) (ht : FourDigitYear now) :
    let m := newManifest s installationID projectID projectName d postgresVersion tables now
    ∃ entry, s.entryFor m.manifestKey = .ok entry ∧ checkManifest m entry = .ok () ∧
      entry.directory = s.backupKey d now ∧ entry.archiveKey = m.archiveKey ∧
      entry.takenAt = unix now := by
  intro m
  have hsame : unix (ofUnix (unix now)) = unix now := unix_ofUnix _
  have ht' : FourDigitYear (ofUnix (unix now)) := (fourDigitYear_congr hsame).mpr ht
  have hparse := parseDirectorySegment_formatTime ht
  have hmanifest : m.manifestKey = fileKey s d (formatTime now) manifestFile := by
    rw [← formatTime_congr hsame]
    exact backupKey_file hd ht' _
  have harchive : m.archiveKey = fileKey s d (formatTime now) archiveFile := by
    rw [← formatTime_congr hsame]
    exact backupKey_file hd ht' _
  have hentry := entryFor_fileKey s hd (segment_formatTime ht).slash (congrArg Prod.snd hparse)
  rw [← hmanifest] at hentry
  refine ⟨_, hentry, ?_, (backupKey_eq hd ht).symm, harchive.symm, congrArg Prod.fst hparse⟩
  refine checkManifest_of_place (s.key [Settings.backupsSegment]) hd ht rfl rfl harchive
    (formatTime_congr hsame) ?_
  rw [databaseRoot_eq s hd, Settings.backupsRoot]
  simp [m, newManifest]

/-- A listing shows the folder as one entry with the two keys, complete unless
    something else lies in it. -/
theorem newManifest_listed (hd : validDatabaseSegment d = true) (ht : FourDigitYear now)
    {objects : List Object} :
    let m := newManifest s installationID projectID projectName d postgresVersion tables now
    (∃ o ∈ objects, o.key = m.archiveKey) → (∃ o ∈ objects, o.key = m.manifestKey) →
    ∃ e ∈ entriesFrom (s.databaseRoot d) objects,
      (∀ e' ∈ entriesFrom (s.databaseRoot d) objects, e'.directory = s.backupKey d now → e' = e) ∧
      e.directory = s.backupKey d now ∧ e.manifestKey = m.manifestKey ∧
      e.archiveKey = m.archiveKey ∧ e.takenAt = unix now ∧
      (e.state = .complete ↔ ¬ HasUnexpected (s.databaseRoot d) objects (formatTime now)) := by
  intro m harchive hmanifest
  have hsame : unix (ofUnix (unix now)) = unix now := unix_ofUnix _
  have ht' : FourDigitYear (ofUnix (unix now)) := (fourDigitYear_congr hsame).mpr ht
  have hparse := parseDirectorySegment_formatTime ht
  -- a file of the folder is found by splitting its key
  have hfile : ∀ file : Text, '/' ∉ file →
      (∃ o ∈ objects, o.key = s.backupKey d (ofUnix (unix now)) ++ '/' :: file) →
      HasFile (s.databaseRoot d) objects (formatTime now) file := by
    rintro file hslash ⟨o, ho, hkey⟩
    refine ⟨o, ho, ?_⟩
    rw [hkey, backupKey_file hd ht', formatTime_congr hsame, fileKey, List.append_assoc,
      Text.trimPrefix_append, Text.split_append (segment_formatTime ht).slash,
      Text.split_of_not_mem hslash]
  have ha := hfile archiveFile (by decide) harchive
  have hm := hfile manifestFile (by decide) hmanifest
  obtain ⟨e, he, hof⟩ := exists_entry ha
  refine ⟨e, he, fun e' he' hdir => ?_, ?_, ?_, ?_, ?_, ?_⟩
  · -- entries of one folder have one key
    obtain ⟨name, hof'⟩ := entryOf_of_mem he'
    have hname : name = formatTime now := by
      rw [hof'.directory, backupKey_eq hd ht] at hdir
      exact List.append_cancel_left hdir
    apply List.inj_on_of_nodup_map (nodup_entriesFrom _ _) he' he
    rw [hof'.manifestKey, hof.manifestKey, hname]
  · rw [hof.directory, backupKey_eq hd ht]
  · rw [hof.manifestKey, ← formatTime_congr hsame]
    exact (backupKey_file hd ht' _).symm
  · rw [hof.archiveKey, ← formatTime_congr hsame]
    exact (backupKey_file hd ht' _).symm
  · rw [hof.takenAt, hparse]
  · exact hof.complete_iff_expected (by rw [hparse]) ha hm

end

/-- For every store, every database name of the layout and every time with a
    four-digit year: the manifest a backup job builds and publishes is accepted
    by the reader and dated to the same second, a listing that has the archive
    and the manifest in the folder and no other file there shows one complete
    entry for it with exactly those keys, and another database or another second
    has another folder. -/
theorem published_backup_found (s : Settings) (installationID projectID projectName : String)
    (d : Text) (postgresVersion : String) (tables : List TableCount) (now : Instant) (size : ℤ)
    (c : Content) (hd : validDatabaseSegment d = true) (ht : FourDigitYear now)
    (hc : encodeManifest
      (newManifest s installationID projectID projectName d postgresVersion tables now) size =
        .ok c) :
    let m := newManifest s installationID projectID projectName d postgresVersion tables now
    (s.decodeManifest m.manifestKey c = .ok m ∧ unix m.createdAt = unix now) ∧
    (∃ entry, s.entryFor m.manifestKey = .ok entry ∧ checkManifest m entry = .ok () ∧
      entry.takenAt = unix now) ∧
    (∀ objects : List Object, (∃ o ∈ objects, o.key = m.archiveKey) →
      (∃ o ∈ objects, o.key = m.manifestKey) →
      ∃ e ∈ entriesFrom (s.databaseRoot d) objects,
        (∀ e' ∈ entriesFrom (s.databaseRoot d) objects,
          e'.directory = s.backupKey d now → e' = e) ∧
        e.directory = s.backupKey d now ∧ e.manifestKey = m.manifestKey ∧
        e.archiveKey = m.archiveKey ∧ e.takenAt = unix now ∧
        (e.state = .complete ↔ ¬ HasUnexpected (s.databaseRoot d) objects (formatTime now))) ∧
    (∀ d' now', validDatabaseSegment d' = true → FourDigitYear now' →
      s.backupKey d' now' = s.backupKey d now → d' = d ∧ unix now' = unix now) := by
  intro m
  obtain ⟨hsize, hmanifest⟩ := encodeManifest_ok hc
  obtain ⟨entry, hentry, hcheck, -, -, htaken⟩ :=
    newManifest_checked s installationID projectID projectName postgresVersion tables hd ht
  refine ⟨⟨?_, unix_ofUnix _⟩, ⟨entry, hentry, hcheck, htaken⟩, fun objects => ?_, ?_⟩
  · unfold Settings.decodeManifest
    rw [hentry]
    dsimp only
    rw [if_neg hsize, hmanifest]
    dsimp only
    rw [show checkManifest { m with manifestKey := m.manifestKey } entry = .ok () from hcheck]
  · exact newManifest_listed s installationID projectID projectName postgresVersion tables hd ht
  · exact fun d' now' hd' ht' heq => backupKey_inj hd' ht' hd ht heq

/-- A backup of the first second of 2026 in a folder with blank segments. -/
theorem published_backup_found_once :
    let s : Settings := ⟨[], [], "pgfy//./prod/".toList, .acknowledged⟩
    let m := newManifest s "i" "p" "Shop" "shop".toList "17" [] (ofUnix 1767225600)
    m.manifestKey = "pgfy/prod/backups/shop/20260101T000000Z/manifest.json".toList ∧
      s.decodeManifest m.manifestKey ⟨100, some m⟩ = .ok m := by
  intro s m
  refine ⟨by decide +kernel, ?_⟩
  exact (published_backup_found s "i" "p" "Shop" "shop".toList "17" [] (ofUnix 1767225600) 100
    ⟨100, some m⟩ (by decide) (by decide +kernel) (by rfl)).1.1

end Storage

end Pgfy
