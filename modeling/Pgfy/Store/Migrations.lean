import Pgfy.Storage.Layout

/-! # Migrations of management storage

    A release carries its migrations; opening the database runs those that are not
    recorded in it. Everything happens in one transaction: the checks, the bodies
    and the records are worked out on a copy, which replaces the database only if
    nothing was refused.

    A body is a function of what the database holds apart from the records, which
    may fail and then leaves its work half done. What it does is not modelled.
    `applyFiles_recorded` says what a pass over the files leaves; opening with a
    longer list then only does the rest (`openStore_resumed`).
-/

namespace Pgfy

/-! ### Opening -/

structure MigrationFile where
  name : String
  body : String
deriving DecidableEq

/-- The embedded directories of a release. -/
abbrev MigrationSources := List (List MigrationFile)

/-- All files of a release, in the order of their names. -/
def migrationFiles (sources : MigrationSources) : List MigrationFile :=
  sources.flatten.insertionSort (fun f g => f.name ≤ g.name)

/-- A database: the names and checksums in `schema_migrations`, if the table is
    there, and all the rest. -/
structure StoreFile (D : Type) where
  applied : Option (List (String × String)) := none
  data : D

/-- What a body does to the rest of a database, and the error it ends with. -/
structure Bodies (D : Type) where
  exec : String → D → D × Option String
  hash : String → String

namespace Bodies

variable {D : Type} (m : Bodies D)

/-- The recorded rows, in a transaction that has made sure of the table. -/
def rows (w : StoreFile D) : List (String × String) := w.applied.getD []

/-- One file: it is recorded as it is, or it is run and recorded. -/
def applyFile (f : MigrationFile) (w : StoreFile D) : Option Err × StoreFile D :=
  match Table.find Prod.fst f.name (rows w) with
  | some (_, existing) =>
    if existing ≠ m.hash f.body then (some (.message "migration checksum mismatch"), w)
    else (none, w)
  | none =>
    match m.exec f.body w.data with
    | (data, some e) =>
      (some (.message ("migration " ++ f.name ++ " failed: " ++ e)), { w with data })
    | (data, none) => (none, { applied := some (rows w ++ [(f.name, m.hash f.body)]), data })

/-- All files, up to the first that is refused. -/
def applyFiles : List MigrationFile → StoreFile D → Option Err × StoreFile D
  | [], w => (none, w)
  | f :: files, w =>
    match m.applyFile f w with
    | (some e, w) => (some e, w)
    | (none, w) => applyFiles files w

/-- The work of a transaction: its error, and the copy it has worked on. -/
def migrate (sources : MigrationSources) (db : StoreFile D) : Option Err × StoreFile D :=
  let w : StoreFile D := { db with applied := some (rows db) }
  let files := migrationFiles sources
  if (rows w).any (fun row => row.1 ∉ files.map MigrationFile.name) then
    (some (.message "database contains an unsupported migration"), w)
  else if (rows w).length > files.length then
    (some (.message "database schema is newer than application"), w)
  else m.applyFiles files w

/-- Opens a database: the copy is committed, or rolled back with an error. -/
def openStore (sources : MigrationSources) (db : StoreFile D) : Option Err × StoreFile D :=
  match m.migrate sources db with
  | (some e, _) => (some e, db)
  | (none, w) => (none, w)

/-- Opens a database with one release after another, whatever becomes of it. -/
def openAll (series : List MigrationSources) (db : StoreFile D) : StoreFile D :=
  series.foldl (fun db sources => (m.openStore sources db).2) db

/-! ### What a pass over the files leaves -/

variable {m} {f : MigrationFile} {files : List MigrationFile} {w w' : StoreFile D}

/-- A file that is recorded with its checksum. -/
def Recorded (m : Bodies D) (f : MigrationFile) (w : StoreFile D) : Prop :=
  Table.find Prod.fst f.name (rows w) = some (f.name, m.hash f.body)

/-- A file that is not refused is recorded, and nothing recorded is lost. Only a file
    that was not recorded is run. -/
theorem applyFile_none (h : m.applyFile f w = (none, w')) :
    (m.Recorded f w ∧ w' = w) ∨
      (Table.find Prod.fst f.name (rows w) = none ∧
        w'.applied = some (rows w ++ [(f.name, m.hash f.body)])) := by
  unfold applyFile at h
  cases hfind : Table.find Prod.fst f.name (rows w) with
  | some row =>
    obtain ⟨name, existing⟩ := row
    have hname : name = f.name := (Table.find_eq_some hfind).2
    rw [hfind] at h
    simp only at h
    split at h
    · cases h
    · rename_i hsame
      cases h
      refine .inl ⟨?_, rfl⟩
      unfold Recorded
      rw [hfind, hname, not_not.mp hsame]
  | none =>
    rw [hfind] at h
    simp only at h
    split at h
    · cases h
    · cases h
      exact .inr ⟨rfl, rfl⟩

theorem rows_of_applied {r : List (String × String)} (h : w.applied = some r) : rows w = r := by
  unfold rows
  rw [h]
  rfl

theorem applyFile_of_recorded (h : m.Recorded f w) : m.applyFile f w = (none, w) := by
  unfold applyFile
  rw [h]
  simp

theorem find_append_of_some {key : String} {row : String × String}
    {old new : List (String × String)} (h : Table.find Prod.fst key old = some row) :
    Table.find Prod.fst key (old ++ new) = some row := by
  unfold Table.find at h ⊢
  rw [List.find?_append, h]
  rfl

theorem applyFile_recorded (h : m.applyFile f w = (none, w')) : m.Recorded f w' := by
  obtain ⟨hrecorded, rfl⟩ | ⟨hnone, hrows⟩ := applyFile_none h
  · exact hrecorded
  · unfold Recorded
    unfold Table.find at hnone ⊢
    rw [rows_of_applied hrows, List.find?_append, hnone]
    simp

theorem Recorded.applyFile {g : MigrationFile} (hg : m.Recorded g w)
    (h : m.applyFile f w = (none, w')) : m.Recorded g w' := by
  obtain ⟨-, rfl⟩ | ⟨-, hrows⟩ := applyFile_none h
  · exact hg
  · unfold Recorded
    rw [rows_of_applied hrows]
    exact find_append_of_some hg

theorem applyFiles_cons_none (h : m.applyFiles (f :: files) w = (none, w')) :
    ∃ w₁, m.applyFile f w = (none, w₁) ∧ m.applyFiles files w₁ = (none, w') := by
  unfold applyFiles at h
  split at h
  · cases h
  · rename_i w₁ hf
    exact ⟨w₁, hf, h⟩

theorem Recorded.applyFiles {g : MigrationFile} (hg : m.Recorded g w)
    (h : m.applyFiles files w = (none, w')) : m.Recorded g w' := by
  induction files generalizing w with
  | nil =>
    cases h
    exact hg
  | cons f files ih =>
    obtain ⟨w₁, hf, hrest⟩ := applyFiles_cons_none h
    exact ih (hg.applyFile hf) hrest

/-- Every file of a pass that is not refused ends up recorded. -/
theorem applyFiles_recorded (h : m.applyFiles files w = (none, w')) :
    ∀ f ∈ files, m.Recorded f w' := by
  induction files generalizing w with
  | nil => simp
  | cons f files ih =>
    obtain ⟨w₁, hf, hrest⟩ := applyFiles_cons_none h
    intro g hg
    cases hg with
    | head => exact (applyFile_recorded hf).applyFiles hrest
    | tail _ hg => exact ih hrest g hg

/-- A pass over recorded files does nothing. -/
theorem applyFiles_of_recorded (h : ∀ f ∈ files, m.Recorded f w) :
    m.applyFiles files w = (none, w) := by
  induction files with
  | nil => rfl
  | cons f files ih =>
    unfold applyFiles
    rw [applyFile_of_recorded (h f List.mem_cons_self)]
    exact ih (fun g hg => h g (List.mem_cons_of_mem _ hg))

theorem applyFiles_append {more : List MigrationFile} (h : m.applyFiles files w = (none, w')) :
    m.applyFiles (files ++ more) w = m.applyFiles more w' := by
  induction files generalizing w with
  | nil =>
    cases h
    rfl
  | cons f files ih =>
    obtain ⟨w₁, hf, hrest⟩ := applyFiles_cons_none h
    rw [List.cons_append, applyFiles, hf]
    exact ih hrest

theorem applyFiles_append_refused {more : List MigrationFile} {e : Err}
    (h : m.applyFiles files w = (some e, w')) :
    m.applyFiles (files ++ more) w = (some e, w') := by
  induction files generalizing w with
  | nil => cases h
  | cons f files ih =>
    rw [applyFiles] at h
    rw [List.cons_append, applyFiles]
    split at h
    · exact h
    · exact ih h

/-- The rows are those of before and at most one for each file. -/
theorem applyFiles_rows (h : m.applyFiles files w = (none, w')) :
    (rows w').length ≤ (rows w).length + files.length ∧
      ∀ row ∈ rows w', row ∈ rows w ∨ row.1 ∈ files.map MigrationFile.name := by
  induction files generalizing w with
  | nil =>
    cases h
    exact ⟨le_refl _, fun row hrow => .inl hrow⟩
  | cons f files ih =>
    obtain ⟨w₁, hf, hrest⟩ := applyFiles_cons_none h
    obtain ⟨hlen, hmem⟩ := ih hrest
    obtain ⟨-, rfl⟩ | ⟨-, hrows⟩ := applyFile_none hf
    · refine ⟨by rw [List.length_cons]; omega, fun row hrow => ?_⟩
      exact (hmem row hrow).imp_right (List.mem_cons_of_mem _)
    · rw [rows_of_applied hrows] at hlen hmem
      rw [List.length_append, List.length_singleton] at hlen
      refine ⟨by rw [List.length_cons]; omega, fun row hrow => ?_⟩
      obtain hold | hnew := hmem row hrow
      · rw [List.mem_append, List.mem_singleton] at hold
        refine hold.imp_right (fun heq => ?_)
        rw [heq]
        exact List.mem_cons_self
      · exact .inr (List.mem_cons_of_mem _ hnew)

theorem applyFiles_applied (h : m.applyFiles files w = (none, w'))
    (hw : w.applied = some (rows w)) : w'.applied = some (rows w') := by
  induction files generalizing w with
  | nil =>
    cases h
    exact hw
  | cons f files ih =>
    obtain ⟨w₁, hf, hrest⟩ := applyFiles_cons_none h
    obtain ⟨-, rfl⟩ | ⟨-, hrows⟩ := applyFile_none hf
    · exact ih hrest hw
    · exact ih hrest (by rw [rows_of_applied hrows, hrows])

/-! ### Opening with a longer list -/

variable {sources sources' : MigrationSources} {db : StoreFile D} {d : D}

/-- A refused open leaves the database as it was. -/
theorem openStore_refused {e : Err} (h : (m.openStore sources db).1 = some e) :
    (m.openStore sources db).2 = db := by
  unfold openStore at h ⊢
  split
  · rfl
  · rename_i hw
    rw [hw] at h
    cases h

/-- An open that is not refused is a pass over all files. -/
theorem openStore_none (h : m.openStore sources db = (none, w)) :
    m.applyFiles (migrationFiles sources) { db with applied := some (rows db) } = (none, w) := by
  unfold openStore migrate at h
  split at h
  · cases h
  · rename_i hw
    cases h
    simp only at hw
    split at hw
    · cases hw
    · split at hw
      · cases hw
      · exact hw

/-- A database that its checks let pass is opened by a pass over all files. -/
theorem openStore_of_known
    (hknown : ∀ row ∈ rows db, row.1 ∈ (migrationFiles sources).map MigrationFile.name)
    (hlen : (rows db).length ≤ (migrationFiles sources).length) :
    m.openStore sources db =
      match m.applyFiles (migrationFiles sources) { db with applied := some (rows db) } with
      | (some e, _) => (some e, db)
      | (none, w) => (none, w) := by
  have hany : ¬ (rows db).any
      (fun row => row.1 ∉ (migrationFiles sources).map MigrationFile.name) = true := by
    rw [List.any_eq_true]
    rintro ⟨row, hrow, hunknown⟩
    exact of_decide_eq_true hunknown (hknown row hrow)
  have hrows : rows { db with applied := some (rows db) } = rows db := rfl
  unfold openStore migrate
  simp only
  rw [hrows, if_neg hany, if_neg (not_lt.mpr hlen)]

/-- The empty database passes all checks. -/
theorem openStore_empty :
    m.openStore sources { data := d } =
      match m.applyFiles (migrationFiles sources) { applied := some [], data := d } with
      | (some e, _) => (some e, { data := d })
      | (none, w) => (none, w) :=
  openStore_of_known (by simp [rows]) (Nat.zero_le _)

/-- A database that was opened with a shorter list is opened with a longer one as
    the empty database is: what is recorded is skipped, and the rest is the same. -/
theorem openStore_resumed (h : m.openStore sources { data := d } = (none, db))
    (hfiles : migrationFiles sources <+: migrationFiles sources') :
    (m.openStore sources' db).1 = (m.openStore sources' { data := d }).1 ∧
      ((m.openStore sources' { data := d }).1 = none →
        (m.openStore sources' db).2 = (m.openStore sources' { data := d }).2) := by
  have hpass := openStore_none h
  have happlied : db.applied = some (rows db) := applyFiles_applied hpass rfl
  obtain ⟨hlen, hmem⟩ := applyFiles_rows hpass
  obtain ⟨more, hmore⟩ := hfiles
  have hknown : ∀ row ∈ rows db, row.1 ∈ (migrationFiles sources').map MigrationFile.name := by
    intro row hrow
    rw [← hmore, List.map_append]
    exact List.mem_append_left _ ((hmem row hrow).resolve_left (by simp [rows]))
  have hcount : (rows db).length ≤ (migrationFiles sources').length := by
    rw [← hmore, List.length_append]
    simp only [rows, Option.getD_none, Option.getD_some, List.length_nil, Nat.zero_add] at hlen ⊢
    omega
  have hskip : m.applyFiles (migrationFiles sources') db = m.applyFiles more db := by
    rw [← hmore]
    exact applyFiles_append (applyFiles_of_recorded (applyFiles_recorded hpass))
  have hfresh : m.applyFiles (migrationFiles sources') { applied := some [], data := d } =
      m.applyFiles more db := by
    rw [← hmore]
    exact applyFiles_append hpass
  have hsame : ({ db with applied := some (rows db) } : StoreFile D) = db := by
    rw [← happlied]
  rw [openStore_of_known hknown hcount, openStore_empty, hsame, hskip, hfresh]
  cases m.applyFiles more db with
  | mk e w =>
    cases e with
    | some e => exact ⟨rfl, fun hnone => nomatch hnone⟩
    | none => exact ⟨rfl, fun _ => rfl⟩

/-! ### A series of releases -/

/-- The files of one release are the first of another's. -/
def Extends (sources sources' : MigrationSources) : Prop :=
  migrationFiles sources <+: migrationFiles sources'

/-- After a series of releases the database is empty still, or as one of them opens
    the empty one. -/
theorem openAll_reached (m : Bodies D) (d : D) (series : List MigrationSources)
    (hseries : series.Pairwise Extends) :
    m.openAll series { data := d } = { data := d } ∨
      ∃ sources ∈ series,
        m.openStore sources { data := d } = (none, m.openAll series { data := d }) := by
  induction series using List.reverseRecOn with
  | nil => exact .inl rfl
  | append_singleton series sources ih =>
    obtain ⟨hbefore, -, hextends⟩ := List.pairwise_append.mp hseries
    have hlast : m.openAll (series ++ [sources]) { data := d } =
        (m.openStore sources (m.openAll series { data := d })).2 := by
      unfold openAll
      rw [List.foldl_append, List.foldl_cons, List.foldl_nil]
    rw [hlast]
    have hreached := ih hbefore
    generalize m.openAll series { data := d } = db at hreached ⊢
    cases hopen : (m.openStore sources db).1 with
    | some e =>
      rw [openStore_refused hopen]
      exact hreached.imp_right (fun ⟨s, hs, h⟩ => ⟨s, List.mem_append_left _ hs, h⟩)
    | none =>
      refine .inr ⟨sources, List.mem_append_right _ List.mem_cons_self, ?_⟩
      obtain rfl | ⟨s, hs, hfresh⟩ := hreached
      · exact Prod.ext hopen rfl
      · obtain ⟨hanswer, hsame⟩ :=
          openStore_resumed hfresh (hextends s hs sources List.mem_cons_self)
        have hnone := hanswer.symm.trans hopen
        exact Prod.ext hnone (hsame hnone).symm

/-- Whatever was opened before, a release answers as it does for the empty database. -/
theorem openStore_after_series (m : Bodies D) (d : D) {series : List MigrationSources}
    {last : MigrationSources} (hseries : (series ++ [last]).Pairwise Extends) :
    (m.openStore last (m.openAll series { data := d })).1 =
        (m.openStore last { data := d }).1 ∧
      ((m.openStore last { data := d }).1 = none →
        (m.openStore last (m.openAll series { data := d })).2 =
          (m.openStore last { data := d }).2) := by
  obtain ⟨hbefore, -, hextends⟩ := List.pairwise_append.mp hseries
  obtain hempty | ⟨sources, hmem, hfresh⟩ := openAll_reached m d series hbefore
  · rw [hempty]
    exact ⟨rfl, fun _ => rfl⟩
  · exact openStore_resumed hfresh (hextends sources hmem last List.mem_cons_self)

/-- A release whose files are the first of another's is not refused if that is not. -/
theorem openStore_none_of_extends (hextends : Extends sources sources')
    (h : (m.openStore sources' { data := d }).1 = none) :
    (m.openStore sources { data := d }).1 = none := by
  obtain ⟨more, hmore⟩ := hextends
  rw [openStore_empty] at h ⊢
  cases hpass : m.applyFiles (migrationFiles sources) { applied := some [], data := d } with
  | mk e w =>
    cases e with
    | none => rfl
    | some e =>
      rw [← hmore, applyFiles_append_refused hpass] at h
      cases h

end Bodies

/-- However a database was brought to a release, by whatever series of releases whose
    files extend each other, opening it with that release ends as opening the empty
    database does: it is refused with the same error, or gives the same records and the
    same data. If it is not refused, none of the series was. A refused open leaves the
    database as it was. -/
theorem migrations_as_from_empty {D : Type} (m : Bodies D) (d : D)
    (series : List MigrationSources) (last : MigrationSources)
    (h : (series ++ [last]).IsChain Bodies.Extends) :
    (m.openStore last (m.openAll series { data := d })).1 =
        (m.openStore last { data := d }).1 ∧
      ((m.openStore last { data := d }).1 = none →
        (m.openStore last (m.openAll series { data := d })).2 =
            (m.openStore last { data := d }).2 ∧
          ∀ before sources after, series = before ++ sources :: after →
            (m.openStore sources (m.openAll before { data := d })).1 = none) ∧
      ∀ sources db e, (m.openStore sources db).1 = some e → (m.openStore sources db).2 = db := by
  have htrans : ∀ {r s t : MigrationSources}, Bodies.Extends r s → Bodies.Extends s t →
      Bodies.Extends r t := fun hrs hst => List.IsPrefix.trans hrs hst
  have : Trans Bodies.Extends Bodies.Extends Bodies.Extends := ⟨htrans⟩
  have hpairs := List.isChain_iff_pairwise.mp h
  obtain ⟨hanswer, hsame⟩ := Bodies.openStore_after_series m d hpairs
  refine ⟨hanswer, fun hnone => ⟨hsame hnone, ?_⟩, fun sources db e => Bodies.openStore_refused⟩
  rintro before sources after rfl
  -- the release is one of the series, so it answers as it does for the empty database
  have hsub : (before ++ [sources]).Sublist (before ++ sources :: after ++ [last]) := by
    rw [List.append_assoc]
    exact (List.Sublist.refl before).append
      (List.Sublist.cons_cons sources (List.nil_sublist _))
  have hextends : Bodies.Extends sources last :=
    (List.pairwise_append.mp hpairs).2.2 sources (by simp) last List.mem_cons_self
  rw [(Bodies.openStore_after_series m d (hpairs.sublist hsub)).1]
  exact Bodies.openStore_none_of_extends hextends hnone

/-- Bodies that are only noted, newest first. -/
def notedBodies : Bodies (List String) where
  exec := fun body data => (body :: data, none)
  hash := fun body => body

def firstRelease : MigrationSources := [[⟨"001_foundation.sql", "foundation"⟩]]

def secondRelease : MigrationSources :=
  [[⟨"001_foundation.sql", "foundation"⟩, ⟨"002_projects.sql", "projects"⟩]]

theorem migrations_as_from_empty_two :
    ([firstRelease, firstRelease] ++ [secondRelease]).IsChain Bodies.Extends ∧
      (notedBodies.openStore secondRelease
          (notedBodies.openAll [firstRelease, firstRelease] { data := [] })).2.data =
        ["projects", "foundation"] := by
  have hchain : ([firstRelease, firstRelease] ++ [secondRelease]).IsChain Bodies.Extends := by
    refine .cons_cons ⟨[], by decide +kernel⟩ (.cons_cons ?_ (.singleton _))
    exact ⟨[⟨"002_projects.sql", "projects"⟩], by decide +kernel⟩
  refine ⟨hchain, ?_⟩
  rw [((migrations_as_from_empty notedBodies [] _ _ hchain).2.1 (by decide +kernel)).1]
  decide +kernel

end Pgfy
