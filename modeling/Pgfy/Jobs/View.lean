import Pgfy.Jobs.Recording

/-! # What the view says once a pass has recorded it

    Recording the folders one after another, each against the rows recorded
    before, comes to this: every folder that was listed has one row for each of
    its entries, made from the state the pass began in, and no other rows.
-/

namespace Pgfy

open Calendar Storage Program

variable {allowed : ∀ ⦃β : Type⦄, Call β → Fault → Prop} {γ : Type} {steady : Orders → γ}
variable {w w' : World} {s : Settings} {d : Text} {b : BucketBackup} {e : Entry}

/-! ### The rows of a folder -/

/-- No owner is recorded for a manifest. -/
def NoOwner (w : World) (s : Settings) (d key : Text) : Prop :=
  (w.db.bucketBackups.map Database.rowKey).Nodup →
    ∀ b ∈ w.db.prefixBackups s.target d, b.manifestKey = key → b.installationID = ""

/-- The row a pass makes of an entry, in terms of the state it began in. -/
inductive Made (allowed : ∀ ⦃β : Type⦄, Call β → Fault → Prop) (w : World) (s : Settings)
    (d : Text) (log : List Event) (e : Entry) : BucketBackup → Prop
  | unread (h : ¬ (e.state = .complete ∨ e.state = .manifestOnly)) :
      Made allowed w s d log e (e.row d)
  /-- the owner was recorded before -/
  | known (h : e.state = .complete ∨ e.state = .manifestOnly) (previous : BucketBackup)
      (hmem : previous ∈ w.db.prefixBackups s.target d)
      (hkey : previous.manifestKey = e.manifestKey) (howner : previous.installationID ≠ "") :
      Made allowed w s d log e ((e.row d).withRecorded previous)
  /-- the stored manifest was read -/
  | read (h : e.state = .complete ∨ e.state = .manifestOnly)
      (hk : NoOwner w s d e.manifestKey) (r : Except Err Manifest)
      (hr : ManifestRead w s e.manifestKey r log) :
      Made allowed w s d log e (classify (e.row d) e r)
  /-- the stored manifest could not be read -/
  | failed (h : e.state = .complete ∨ e.state = .manifestOnly)
      (hk : NoOwner w s d e.manifestKey)
      (hf : Faulty allowed (.bucket s (.readBytes e.manifestKey))) :
      Made allowed w s d log e { e.row d with state := .damaged }

theorem Made.rowOf {log : List Event} (h : Made allowed w s d log e b) : RowOf d e b := by
  cases h with
  | unread h => exact rowOf_row d e
  | known h previous hmem hkey howner => exact rowOf_withRecorded d e previous
  | read h hk r hr => exact rowOf_classify d h r
  | failed h hk hf => exact ⟨rfl, rfl, rfl, rfl, rfl, Or.inr ⟨rfl, h⟩⟩

theorem Made.mono {w₁ w₂ : World} (hl : Later steady w₁ w₂) (h : Made allowed w s d w₁.log e b) :
    Made allowed w s d w₂.log e b := by
  cases h with
  | unread h => exact .unread h
  | known h previous hmem hkey howner => exact .known h previous hmem hkey howner
  | read h hk r hr =>
    exact .read h hk r ⟨hr.result, fun c entry hc he =>
      hl.grew.thisPass (fun h => h) (hr.noted c entry hc he)⟩
  | failed h hk hf => exact .failed h hk hf

/-- Making a row again from a row made before gives the same owner. -/
theorem Made.again {log : List Event} {previous : BucketBackup}
    (h : e.state = .complete ∨ e.state = .manifestOnly) (hmade : Made allowed w s d log e previous)
    (k : ℤ) (howner : previous.installationID ≠ "") :
    Made allowed w s d log e
      ((e.row d).withRecorded { previous with deleteStartedAt := k }) := by
  cases hmade with
  | unread hno => exact absurd h hno
  | known _ first hmem hkey hfirst => exact .known h first hmem hkey hfirst
  | failed _ hk hf => exact absurd rfl howner
  | read _ hk r hr =>
    -- only a valid manifest names an owner
    cases r with
    | error err => exact absurd rfl howner
    | ok m =>
      have hread : Made allowed w s d log e (classify (e.row d) e (.ok m)) :=
        .read h hk (.ok m) hr
      simp only [classify] at howner hread ⊢
      cases hcheck : checkManifest m e with
      | error err =>
        rw [hcheck] at howner
        exact absurd rfl howner
      | ok u =>
        rw [hcheck] at hread
        exact hread

/-! ### The view of a folder -/

/-- The view has one row for each of `bs` in the folder, up to delete markers,
    and no other. -/
structure Shows (view : List (Text × BucketBackup)) (target d : Text) (bs : List BucketBackup) :
    Prop where
  rows : ∀ b, (target, b) ∈ view → b.dbName = d →
    ∃ b₀ ∈ bs, ∃ k, b = { b₀ with deleteStartedAt := k }
  there : ∀ b₀ ∈ bs, ∃ k, (target, { b₀ with deleteStartedAt := k }) ∈ view
  keys : ∀ b, (target, b) ∈ view → ∀ b₀ ∈ bs, b.manifestKey = b₀.manifestKey → b.dbName = d

theorem shows_replaceRows {view : List (Text × BucketBackup)} {target d : Text}
    {bs : List BucketBackup} (hn : (bs.map BucketBackup.manifestKey).Nodup)
    (hd : ∀ b ∈ bs, b.dbName = d) : Shows (Database.replaceRows target d bs view) target d bs := by
  constructor
  · intro b hb hfolder
    rcases Database.mem_replaceRows hb with ⟨b₀, hb₀, k, hrow, -⟩ | ⟨-, hother, -⟩
    · exact ⟨b₀, hb₀, k, (Prod.mk.inj hrow).2⟩
    · exact absurd ⟨rfl, hfolder⟩ hother
  · intro b₀ hb₀
    exact Database.mem_replaceRows_of_mem hn hb₀
  · intro b hb b₀ hb₀ hkey
    rcases Database.mem_replaceRows hb with ⟨b₁, hb₁, k, hrow, -⟩ | ⟨-, -, hne⟩
    · rw [(Prod.mk.inj hrow).2]
      exact hd b₁ hb₁
    · exact absurd (congrArg (Prod.mk target) hkey) (hne b₀ hb₀)

/-- Recording another folder leaves this one as it is. -/
theorem Shows.other {view : List (Text × BucketBackup)} {target d d' : Text}
    {bs bs' : List BucketBackup} (h : Shows view target d bs) (hne : d' ≠ d)
    (hd' : ∀ b ∈ bs', b.dbName = d')
    (hkeys : ∀ b ∈ bs, ∀ b' ∈ bs', b.manifestKey ≠ b'.manifestKey) :
    Shows (Database.replaceRows target d' bs' view) target d bs := by
  constructor
  · intro b hb hfolder
    rcases Database.mem_replaceRows hb with ⟨b₀, hb₀, k, hrow, -⟩ | ⟨hold, -, -⟩
    · rw [(Prod.mk.inj hrow).2] at hfolder
      exact absurd ((hd' b₀ hb₀).symm.trans hfolder) hne
    · exact h.rows b hold hfolder
  · intro b₀ hb₀
    obtain ⟨k, hrow⟩ := h.there b₀ hb₀
    refine ⟨k, Database.mem_replaceRows_of_other hrow ?_ ?_⟩
    · intro b' hb' hkey
      exact hkeys b₀ hb₀ b' hb' (Prod.mk.inj hkey).2
    · intro r' hr' hfolder hkey htarget
      obtain ⟨t, b⟩ := r'
      obtain rfl : t = target := htarget
      exact hne (hfolder.symm.trans (h.keys b hr' b₀ hb₀ (Prod.mk.inj hkey).2))
  · intro b hb b₀ hb₀ hkey
    rcases Database.mem_replaceRows hb with ⟨b₁, hb₁, k, hrow, -⟩ | ⟨hold, -, -⟩
    · rw [(Prod.mk.inj hrow).2] at hkey
      exact absurd hkey.symm (hkeys b₀ hb₀ b₁ hb₁)
    · exact h.keys b hold b₀ hb₀ hkey

/-- A row whose keys and time are those of a directory of the folder. -/
def InFolder (s : Settings) (d : Text) (b : BucketBackup) : Prop :=
  ∃ name, '/' ∉ name ∧ b.manifestKey = fileKey s d name manifestFile ∧
    b.archiveKey = fileKey s d name archiveFile ∧ b.takenAt = (parseDirectorySegment name).1

theorem RowOf.inFolder {objects : List Object} (he : e ∈ entriesFrom (s.databaseRoot d) objects)
    (h : RowOf d e b) : InFolder s d b := by
  obtain ⟨name, hname⟩ := entryOf_of_mem he
  obtain ⟨file, hfile⟩ := hname.nonempty
  exact ⟨name, hfile.slash.1, h.manifestKey.trans hname.manifestKey,
    h.archiveKey.trans hname.archiveKey, h.takenAt.trans hname.takenAt⟩

/-- Rows of two folders have different keys. -/
theorem InFolder.key_ne {d d' : Text} {b b' : BucketBackup} (hd : validDatabaseSegment d = true)
    (hd' : validDatabaseSegment d' = true) (hne : d' ≠ d) (h : InFolder s d b)
    (h' : InFolder s d' b') : b.manifestKey ≠ b'.manifestKey := by
  intro hkey
  obtain ⟨name, hname, hm, -⟩ := h
  obtain ⟨name', hname', hm', -⟩ := h'
  rw [hm, hm'] at hkey
  exact hne (fileKey_inj hd hd' hname hname' (by decide) (by decide) hkey).1.symm

/-- The objects of two directories are different ones. -/
theorem InFolder.keys_ne {d d' : Text} {b b' : BucketBackup} (hd : validDatabaseSegment d = true)
    (hd' : validDatabaseSegment d' = true) (h : InFolder s d b) (h' : InFolder s d' b')
    (hne : b'.manifestKey ≠ b.manifestKey) {key : Text}
    (hkey : key = b'.manifestKey ∨ key = b'.archiveKey) :
    b.manifestKey ≠ key ∧ b.archiveKey ≠ key := by
  obtain ⟨name, hname, hm, ha, -⟩ := h
  obtain ⟨name', hname', hm', ha', -⟩ := h'
  have hfiles : ∀ file file', '/' ∉ file → '/' ∉ file' →
      fileKey s d name file ≠ fileKey s d' name' file' := by
    intro file file' hfile hfile' heq
    obtain ⟨rfl, rfl, -⟩ := fileKey_inj hd hd' hname hname' hfile hfile' heq
    exact hne (hm'.trans hm.symm)
  rcases hkey with rfl | rfl
  · rw [hm, ha, hm']
    exact ⟨hfiles _ _ (by decide) (by decide), hfiles _ _ (by decide) (by decide)⟩
  · rw [hm, ha, ha']
    exact ⟨hfiles _ _ (by decide) (by decide), hfiles _ _ (by decide) (by decide)⟩

/-- The folder `d` is still as it was when the pass began. -/
structure Unrecorded (s : Settings) (d : Text) (w w₁ : World) : Prop where
  sub : ∀ b ∈ w₁.db.prefixBackups s.target d, b ∈ w.db.prefixBackups s.target d
  kept : (w.db.bucketBackups.map Database.rowKey).Nodup →
    (w₁.db.bucketBackups.map Database.rowKey).Nodup ∧
      ∀ b ∈ w.db.prefixBackups s.target d,
        (∃ name, '/' ∉ name ∧ b.manifestKey = fileKey s d name manifestFile) →
          b ∈ w₁.db.prefixBackups s.target d

/-- The folder `d` is recorded as it was when the pass began. -/
def Done (allowed : ∀ ⦃β : Type⦄, Call β → Fault → Prop) (s : Settings) (d : Text) (w w₁ : World) :
    Prop :=
  ∃ bs, List.Forall₂ (Made allowed w s d w₁.log) (w.entries s d) bs ∧
    Shows w₁.db.bucketBackups s.target d bs

theorem Unrecorded.refl (s : Settings) (d : Text) (w : World) : Unrecorded s d w w :=
  ⟨fun _ hb => hb, fun hn => ⟨hn, fun _ hb _ => hb⟩⟩

/-- Replacing the rows of another folder. -/
theorem Unrecorded.other {d d' : Text} {w₁ w₂ : World} {bs : List BucketBackup}
    (h : Unrecorded s d w w₁) (hd : validDatabaseSegment d = true) (hne : d' ≠ d)
    (hview : w₂.db.bucketBackups = Database.replaceRows s.target d' bs w₁.db.bucketBackups)
    (hbs : ∀ b ∈ bs, b.dbName = d' ∧ validDatabaseSegment d' = true ∧ InFolder s d' b) :
    Unrecorded s d w w₂ := by
  constructor
  · intro b hb
    obtain ⟨hmem, hfolder⟩ := Database.mem_prefixBackups.mp hb
    rw [hview] at hmem
    rcases Database.mem_replaceRows hmem with ⟨b₀, hb₀, k, hrow, -⟩ | ⟨hold, -, -⟩
    · rw [(Prod.mk.inj hrow).2] at hfolder
      exact absurd ((hbs b₀ hb₀).1.symm.trans hfolder) hne
    · exact h.sub b (Database.mem_prefixBackups.mpr ⟨hold, hfolder⟩)
  · intro hn
    obtain ⟨hn₁, hkept⟩ := h.kept hn
    refine ⟨hview ▸ Database.nodup_replaceRows hn₁, fun b hb hname => ?_⟩
    obtain ⟨hmem, hfolder⟩ := Database.mem_prefixBackups.mp (hkept b hb hname)
    refine Database.mem_prefixBackups.mpr ⟨hview ▸ ?_, hfolder⟩
    apply Database.mem_replaceRows_of_other hmem
    · intro b' hb' hkey
      obtain ⟨-, hvalid', name', hname', hm', -⟩ := hbs b' hb'
      obtain ⟨name, hslash, hm⟩ := hname
      have hsame : b.manifestKey = b'.manifestKey := (Prod.mk.inj hkey).2
      rw [hm, hm'] at hsame
      exact hne (fileKey_inj hd hvalid' hslash hname' (by decide) (by decide) hsame).1.symm
    · intro r' hr' hfolder' hkey _
      have hrow := List.inj_on_of_nodup_map hn₁ hr' hmem hkey
      rw [hrow] at hfolder'
      exact hne (hfolder'.symm.trans hfolder)

/-- The rows of the folder, each with the directory it is of. -/
theorem made_inFolder {log : List Event} {bs : List BucketBackup}
    (h : List.Forall₂ (Made allowed w s d log) (w.entries s d) bs) :
    ∀ b ∈ bs, b.dbName = d ∧ InFolder s d b := by
  intro b hb
  obtain ⟨e, he, hmade⟩ := Table.exists_left h hb
  exact ⟨hmade.rowOf.dbName, hmade.rowOf.inFolder he⟩

/-- Whether recorded yet or not, a folder is left alone by another's recording. -/
theorem Done.other {d d' : Text} {w₁ w₂ : World} {bs : List BucketBackup}
    (h : Done allowed s d w w₁) (hd : validDatabaseSegment d = true) (hne : d' ≠ d)
    (hl : Later steady w₁ w₂)
    (hview : w₂.db.bucketBackups = Database.replaceRows s.target d' bs w₁.db.bucketBackups)
    (hbs : ∀ b ∈ bs, b.dbName = d' ∧ validDatabaseSegment d' = true ∧ InFolder s d' b) :
    Done allowed s d w w₂ := by
  obtain ⟨rows, hmade, hshows⟩ := h
  refine ⟨rows, hmade.imp (fun e b hb => hb.mono hl), hview ▸ ?_⟩
  apply hshows.other hne (fun b hb => (hbs b hb).1)
  intro b hb b' hb'
  exact InFolder.key_ne hd (hbs b' hb').2.1 hne (made_inFolder hmade b hb).2 (hbs b' hb').2.2

theorem knownOwner_eq_some {recorded : List BucketBackup} {key : Text}
    (h : knownOwner recorded key = some b) :
    b ∈ recorded ∧ b.manifestKey = key ∧ b.installationID ≠ "" := by
  obtain ⟨hfind, howner⟩ := Option.filter_eq_some_iff.mp h
  obtain ⟨hmem, hkey⟩ := Table.find_eq_some hfind
  exact ⟨hmem, hkey, of_decide_eq_true howner⟩

/-- If no owner is found for a key, a row that alone has the key has none. -/
theorem owner_of_knownOwner_none {recorded : List BucketBackup} {key : Text}
    (h : knownOwner recorded key = none) (hb : b ∈ recorded) (hkey : b.manifestKey = key)
    (honly : ∀ b' ∈ recorded, b'.manifestKey = key → b'.installationID = b.installationID) :
    b.installationID = "" := by
  unfold knownOwner at h
  cases hfind : Table.find BucketBackup.manifestKey key recorded with
  | none => exact absurd hkey (Table.find_eq_none.mp hfind b hb)
  | some b' =>
    obtain ⟨hmem, hkey'⟩ := Table.find_eq_some hfind
    rw [hfind, Option.filter_some] at h
    by_contra howner
    have hb' := honly b' hmem hkey'
    simp [hb', howner] at h

/-- Rows of a folder that are of one entry. -/
theorem Done.entry_eq {log : List Event} {bs : List BucketBackup}
    (hmade : List.Forall₂ (Made allowed w s d log) (w.entries s d) bs) (he : e ∈ w.entries s d)
    (hb : b ∈ bs) (hkey : b.manifestKey = e.manifestKey) : Made allowed w s d log e b := by
  obtain ⟨e', he', hb'⟩ := Table.exists_left hmade hb
  have hsame : e' = e := List.inj_on_of_nodup_map (nodup_entriesFrom _ _) he' he
    (hb'.rowOf.manifestKey.symm.trans hkey)
  exact hsame ▸ hb'

/-- When no owner is found for a manifest, none was recorded when the pass
    began. -/
theorem noOwner_of_knownOwner_none {w₁ : World} (he : e ∈ w.entries s d)
    (hstate : e.state = .complete ∨ e.state = .manifestOnly)
    (hfolder : Unrecorded s d w w₁ ∨ Done allowed s d w w₁)
    (hk : knownOwner (w₁.db.prefixBackups s.target d) e.manifestKey = none) :
    NoOwner w s d e.manifestKey := by
  intro hn b hb hkey
  rcases hfolder with hfolder | ⟨bs, hmade, hshows⟩
  · obtain ⟨hn₁, hkept⟩ := hfolder.kept hn
    obtain ⟨name, hslash, hm, -⟩ := (rowOf_row d e).inFolder he
    have hb₁ := hkept b hb ⟨name, hslash, hkey.trans hm⟩
    apply owner_of_knownOwner_none hk hb₁ hkey
    intro b' hb' hkey'
    have hrows := List.inj_on_of_nodup_map hn₁ (Database.mem_prefixBackups.mp hb').1
      (Database.mem_prefixBackups.mp hb₁).1
      (congrArg (Prod.mk s.target) (hkey'.trans hkey.symm))
    exact congrArg (·.2.installationID) hrows
  · -- the row of this pass has no owner either, so it was made without one
    obtain ⟨b₀, hb₀, hmade₀⟩ := Table.exists_right hmade he
    obtain ⟨k, hrow⟩ := hshows.there b₀ hb₀
    have howner : b₀.installationID = "" := by
      apply owner_of_knownOwner_none hk (b := { b₀ with deleteStartedAt := k })
      · exact Database.mem_prefixBackups.mpr ⟨hrow, hmade₀.rowOf.dbName⟩
      · exact hmade₀.rowOf.manifestKey
      · intro b' hb' hkey'
        obtain ⟨hmem', hfolder'⟩ := Database.mem_prefixBackups.mp hb'
        obtain ⟨b₁, hb₁, k', rfl⟩ := hshows.rows b' hmem' hfolder'
        have hkeys := rowOf_keys_nodup (hmade.imp (fun e b hb => hb.rowOf))
        have hsame : b₁ = b₀ := List.inj_on_of_nodup_map hkeys hb₁ hb₀
          (Eq.trans hkey' hmade₀.rowOf.manifestKey.symm)
        rw [hsame]
    cases hmade₀ with
    | unread h => exact absurd hstate h
    | known _ previous _ _ hprevious => exact absurd howner hprevious
    | read _ hno _ _ | failed _ hno _ => exact hno hn b hb hkey

/-- A row made while recording, in terms of the state the pass began in. -/
theorem Classified.made {w₁ w₂ : World} (he : e ∈ w.entries s d) (hobjects : w₁.objects = w.objects)
    (hl : Later steady w₁ w₂) (hfolder : Unrecorded s d w w₁ ∨ Done allowed s d w w₁)
    (h : Classified allowed w₁ s (w₁.db.prefixBackups s.target d) d w₂.log e b) :
    Made allowed w s d w₂.log e b := by
  cases h with
  | unread h => exact .unread h
  | read h hk r hr =>
    exact .read h (noOwner_of_knownOwner_none he h hfolder hk) r (hr.congr hobjects)
  | failed h hk hf => exact .failed h (noOwner_of_knownOwner_none he h hfolder hk) hf
  | known h previous hk =>
    obtain ⟨hmem, hkey, howner⟩ := knownOwner_eq_some hk
    rcases hfolder with hfolder | ⟨bs, hmade, hshows⟩
    · exact .known h previous (hfolder.sub previous hmem) hkey howner
    · obtain ⟨hrow, hdb⟩ := Database.mem_prefixBackups.mp hmem
      obtain ⟨b₀, hb₀, k, rfl⟩ := hshows.rows previous hrow hdb
      exact Made.again h ((Done.entry_eq hmade he hb₀ hkey).mono hl) k howner

/-- Recording the folder itself. -/
theorem FolderRecorded.done {w₁ w₂ : World} (h : FolderRecorded allowed steady s d w₁ w₂)
    (hobjects : w₁.objects = w.objects) (hfolder : Unrecorded s d w w₁ ∨ Done allowed s d w w₁) :
    Done allowed s d w w₂ := by
  obtain ⟨bs, now, hrows, hcore⟩ := h.written
  unfold FolderRows at hrows
  rw [World.entries_congr hobjects] at hrows
  have hmade : List.Forall₂ (Made allowed w s d w₂.log) (w.entries s d) bs := by
    have hpairs := List.forall₂_iff_get.mp hrows
    refine List.forall₂_iff_get.mpr ⟨hpairs.1, fun i h₁ h₂ => ?_⟩
    exact (hpairs.2 i h₁ h₂).made (List.getElem_mem h₁) hobjects h.later hfolder
  refine ⟨bs, hmade, ?_⟩
  have hview : w₂.db.bucketBackups = Database.replaceRows s.target d bs w₁.db.bucketBackups :=
    congrArg Core.view hcore
  rw [hview]
  apply shows_replaceRows
  · exact rowOf_keys_nodup (hmade.imp (fun e b hb => hb.rowOf))
  · exact fun b hb => (made_inFolder hmade b hb).1

/-- What recording a folder does to the view. -/
theorem FolderRecorded.rows {w₁ w₂ : World} (h : FolderRecorded allowed steady s d w₁ w₂) :
    ∃ bs, w₂.db.bucketBackups = Database.replaceRows s.target d bs w₁.db.bucketBackups ∧
      ∀ b ∈ bs, b.dbName = d ∧ validDatabaseSegment d = true ∧ InFolder s d b := by
  obtain ⟨bs, now, hrows, hcore⟩ := h.written
  refine ⟨bs, congrArg Core.view hcore, fun b hb => ?_⟩
  obtain ⟨e, he, hrow⟩ := Table.exists_left hrows hb
  exact ⟨hrow.rowOf.dbName, h.valid, hrow.rowOf.inFolder he⟩

theorem Done.of_unmoved {w₁ : World} (h : Done allowed s d w w₁) (hm : Unmoved steady w₁ w') :
    Done allowed s d w w' := by
  obtain ⟨bs, hmade, hshows⟩ := h
  exact ⟨bs, hmade.imp (fun e b hb => hb.mono hm.later), World.view_of_core hm.core ▸ hshows⟩

/-- However often and in whatever order folders are recorded, each comes to be
    recorded as it was when the pass began. -/
theorem RecordedAll.done {names : List Text} {w₁ : World}
    (h : RecordedAll allowed steady s names w₁ w') (hd : validDatabaseSegment d = true)
    (hobjects : w₁.objects = w.objects)
    (hfolder : (Unrecorded s d w w₁ ∧ d ∈ names) ∨ Done allowed s d w w₁) :
    Done allowed s d w w' := by
  induction h with
  | nil h =>
    rcases hfolder with ⟨-, hnone⟩ | hdone
    · cases hnone
    · exact hdone.of_unmoved h
  | @cons d' names w₁ w₂ w' h rest ih =>
    apply ih (h.objects.trans hobjects)
    by_cases hname : d' = d
    · subst hname
      exact Or.inr (h.done hobjects (hfolder.imp_left (·.1)))
    · obtain ⟨bs, hview, hbs⟩ := h.rows
      rcases hfolder with ⟨hfolder, hmem⟩ | hdone
      · refine Or.inl ⟨hfolder.other hd hname hview hbs, ?_⟩
        exact (List.mem_cons.mp hmem).resolve_left (fun hd' => hname hd'.symm)
      · exact Or.inr (hdone.other hd hname h.later hview hbs)

theorem EmptiedAll.unrecorded {names : List Text} {w₁ : World} (h : EmptiedAll steady s names w₁ w')
    (hd : validDatabaseSegment d = true) (hnot : d ∉ names) (hfolder : Unrecorded s d w w₁) :
    Unrecorded s d w w' := by
  induction h with
  | nil h =>
    constructor
    · rw [World.prefixBackups_congr (World.view_of_core h.core)]
      exact hfolder.sub
    · rw [World.prefixBackups_congr (World.view_of_core h.core), World.view_of_core h.core]
      exact hfolder.kept
  | cons now later core rest ih =>
    obtain ⟨hne, hrest⟩ := not_or.mp (mt List.mem_cons.mpr hnot)
    exact ih hrest (hfolder.other hd (Ne.symm hne) (congrArg Core.view core) (by simp))

/-- Once the view is complete, every folder is recorded as it was when the pass
    began. -/
theorem Reconciled.done (h : Reconciled allowed steady s w w') (hd : d ∈ w.databases s) :
    Done allowed s d w w' := by
  obtain ⟨w₁, hempty, hall⟩ := h
  have hvalid := World.valid_of_mem_databases hd
  apply hall.done hvalid hempty.objects
  refine Or.inl ⟨hempty.unrecorded hvalid ?_ (Unrecorded.refl s d w), hd⟩
  intro hmem
  exact of_decide_eq_true (List.mem_filter.mp hmem).2 hd

theorem Reconciled.unmoved {w₁ : World} (h : Reconciled allowed steady s w w₁)
    (hm : Unmoved steady w₁ w') : Reconciled allowed steady s w w' := by
  obtain ⟨w₂, hempty, hall⟩ := h
  exact ⟨w₂, hempty, hall.unmoved hm⟩

theorem Reconciled.history (h : Reconciled allowed steady s w w') :
    w'.db.backups = w.db.backups := by
  obtain ⟨w₁, hempty, hall⟩ := h
  exact hall.history.trans hempty.history

end Pgfy
