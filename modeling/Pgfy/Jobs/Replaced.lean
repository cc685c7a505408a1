import Pgfy.Jobs.View

/-! # A manifest that was written over

    A row keeps the owner that was recorded when its key was first seen. Before
    a backup is deleted its manifest is read once more, and a row that no longer
    agrees is to be dropped, so that the next pass reads the manifest again. The
    client has its own check of a manifest and reports a failed one as an error,
    which the deletion takes for a failed read.
-/

namespace Pgfy

open Calendar Storage Program

/-! ### Rows and what is stored under their keys -/

/-- A row as a pass over the store records it, up to its delete marker. -/
def BucketBackup.RecordedIn (s : Settings) (d : Text) (b : BucketBackup) : Prop :=
  ∃ objects, ∃ e ∈ entriesFrom (s.databaseRoot d) objects, RowOf d e { b with deleteStartedAt := 0 }

/-- What is stored under the manifest key of a row is not what the row says: no
    manifest that passes `checkManifest`, or one that names another installation
    or another project. -/
def Replaced (installationID : String) (b : BucketBackup) (c : Content) : Prop :=
  ∀ m, c.manifest = some m →
    checkManifest { m with manifestKey := b.manifestKey } b.entry ≠ .ok () ∨
      m.installationID ≠ installationID ∨ m.projectID ≠ b.projectID

/-- It is a manifest that passes `checkManifest` and names another installation. -/
def OtherInstallation (installationID : String) (b : BucketBackup) (c : Content) : Prop :=
  c.size ≤ maxManifestBytes ∧ ∃ m, c.manifest = some m ∧
    checkManifest { m with manifestKey := b.manifestKey } b.entry = .ok () ∧
    m.installationID ≠ installationID

/-- The directory of a complete row. -/
structure DirectoryOf (s : Settings) (d name : Text) (b : BucketBackup) : Prop where
  slash : '/' ∉ name
  parses : (parseDirectorySegment name).2 = true
  manifestKey : b.manifestKey = fileKey s d name manifestFile
  archiveKey : b.archiveKey = fileKey s d name archiveFile

section
variable {s : Settings} {d name : Text} {b : BucketBackup} {c : Content}

theorem BucketBackup.RecordedIn.directory (h : b.RecordedIn s d) (hstate : b.state = .complete) :
    ∃ name, DirectoryOf s d name b := by
  obtain ⟨objects, e, he, hrow⟩ := h
  obtain ⟨name, hname⟩ := entryOf_of_mem he
  obtain ⟨file, hfile⟩ := hname.nonempty
  have hcomplete : e.state = .complete := by
    rcases hrow.state with h | ⟨h, -⟩
    · exact h.symm.trans hstate
    · rw [show b.state = .damaged from h] at hstate
      cases hstate
  exact ⟨name, hfile.slash.1, (hname.complete.mp hcomplete).1,
    hrow.manifestKey.trans hname.manifestKey, hrow.archiveKey.trans hname.archiveKey⟩

theorem DirectoryOf.entry_directory (h : DirectoryOf s d name b) :
    b.entry.directory = s.databaseRoot d ++ name := by
  show Text.trimSuffix ('/' :: manifestFile) b.manifestKey = _
  rw [h.manifestKey]
  exact Text.trimSuffix_append _ _

/-- The key of the row leads to an entry against which manifests are checked as
    against the row. -/
theorem DirectoryOf.entryFor (h : DirectoryOf s d name b) (hd : validDatabaseSegment d = true) :
    ∃ entry, s.entryFor b.manifestKey = .ok entry ∧
      ∀ m, checkManifest m entry = checkManifest m b.entry := by
  rw [h.manifestKey]
  refine ⟨_, entryFor_fileKey s hd h.slash h.parses, fun m => ?_⟩
  exact checkManifest_congr h.entry_directory.symm h.manifestKey.symm h.archiveKey.symm

/-- What the client makes of the content under the key of a row. -/
theorem DirectoryOf.decodeManifest_iff (h : DirectoryOf s d name b)
    (hd : validDatabaseSegment d = true) {m : Manifest} :
    s.decodeManifest b.manifestKey c = .ok m ↔ c.size ≤ maxManifestBytes ∧
      ∃ m₀, c.manifest = some m₀ ∧ m = { m₀ with manifestKey := b.manifestKey } ∧
        checkManifest m b.entry = .ok () := by
  obtain ⟨entry, hentry, hcheck⟩ := h.entryFor hd
  unfold Settings.decodeManifest
  rw [hentry]
  simp only [hcheck]
  by_cases hsize : maxManifestBytes < c.size
  · simp [hsize, not_le.mpr hsize]
  · rw [if_neg hsize]
    cases hm : c.manifest with
    | none => simp
    | some m₀ =>
      cases hok : checkManifest { m₀ with manifestKey := b.manifestKey } b.entry with
      | error e =>
        simp only [hok, reduceCtorEq, false_iff]
        rintro ⟨-, m₁, hm₁, rfl, hm₂⟩
        obtain rfl := Option.some.inj hm₁
        rw [hok] at hm₂
        cases hm₂
      | ok u =>
        simp only [hok, Except.ok.injEq]
        constructor
        · rintro rfl
          exact ⟨not_lt.mp hsize, m₀, rfl, rfl, hok⟩
        · rintro ⟨-, m₁, hm₁, rfl, -⟩
          rw [Option.some.inj hm₁]

end

/-! ### Watching a manifest -/

/-- No row under the key has come to the view. -/
def NoneRecorded (target key : Text) (w w' : World) : Prop :=
  ∀ b, (target, b) ∈ w'.db.bucketBackups → b.manifestKey = key → (target, b) ∈ w.db.bucketBackups

theorem NoneRecorded.trans {target key : Text} {w₁ w₂ w₃ : World}
    (h : NoneRecorded target key w₁ w₂) (h' : NoneRecorded target key w₂ w₃) :
    NoneRecorded target key w₁ w₃ :=
  fun b hb hkey => h b (h' b hb hkey) hkey

/-- What others may do: anything but write over the manifest or record it. -/
structure Meanwhile (target key : Text) (w w' : World) : Prop where
  content : w'.content key = w.content key
  rows : NoneRecorded target key w w'
  log : w'.log = w.log

theorem Meanwhile.refl (target key : Text) (w : World) : Meanwhile target key w w :=
  ⟨rfl, fun _ hb _ => hb, rfl⟩

theorem Meanwhile.trans {target key : Text} {w₁ w₂ w₃ : World} (h : Meanwhile target key w₁ w₂)
    (h' : Meanwhile target key w₂ w₃) : Meanwhile target key w₁ w₃ :=
  ⟨h'.content.trans h.content, h.rows.trans h'.rows, h'.log.trans h.log⟩

/-- The setting in which the content under one manifest key is `c`. -/
def watching (allowed : ∀ ⦃β : Type⦄, Call β → Fault → Prop) (target key : Text) (c : Content) :
    Setting World Call where
  answer := answers allowed
  inv := fun w => w.content key = some c
  rely := Meanwhile target key
  guar := fun _ _ => True
  rely_refl := Meanwhile.refl target key
  rely_trans := Meanwhile.trans

section
variable {allowed : ∀ ⦃β : Type⦄, Call β → Fault → Prop} {target key : Text} {c : Content}
variable {w : World} {s : Settings}

/-- The rule for a call. -/
theorem watched_ask {α : Type} {q : Call α} {Q : α → World → Prop}
    (h : ∀ w₁ fault, NoneRecorded target key w w₁ → w₁.log = w.log → w₁.content key = some c →
      allowed q fault → (execCall fault w₁ q).2.content key = some c ∧
        ∀ w', NoneRecorded target key (execCall fault w₁ q).2 w' →
          w'.log = observe w₁.db q (execCall fault w₁ q).1 ++ (execCall fault w₁ q).2.log →
            Q (execCall fault w₁ q).1 w') :
    Safe (watching allowed target key c) (Prog.ask q) Q w := by
  apply Safe.ask
  intro w₁ hq hi r w₂ ⟨fault, t, hallowed, _, hexec⟩
  obtain ⟨hcontent, hQ⟩ := h { w₁ with clock := t } fault hq.rows hq.log hi hallowed
  obtain ⟨rfl, rfl⟩ := Prod.mk.inj hexec
  exact ⟨hcontent, trivial, fun w' hq' _ => hQ w' hq'.rows hq'.log⟩

/-- The rule for a look. -/
theorem watched_look {α : Type} {q : Call α} {Q : α → World → Prop} (hq : ReadOnly q)
    (h : ∀ w₁ fault w', NoneRecorded target key w w₁ → w₁.content key = some c → allowed q fault →
      NoneRecorded target key w w' → w'.log = observe w₁.db q (execCall fault w₁ q).1 ++ w.log →
        Q (execCall fault w₁ q).1 w') :
    Safe (watching allowed target key c) (Prog.ask q) Q w := by
  apply watched_ask
  intro w₁ fault hkept hlog hi hallowed
  have hsame := hq.same fault w₁
  rw [hsame]
  refine ⟨hi, fun w' hkept' hlog' => h w₁ fault w' hkept hi hallowed (hkept.trans hkept') ?_⟩
  rw [hlog', hlog]

/-- Reading a manifest, whichever. -/
theorem readManifest_look {k : Text} :
    Safe (watching allowed target key c) (readManifest s k) (fun _ w' =>
      NoneRecorded target key w w' ∧
      ∃ new, w'.log = new ++ w.log ∧ ∀ e ∈ new, ∃ x, e = .read s k x) w := by
  apply Safe.bindAction
  apply Safe.ret
  intro w₁ hq₁ _
  cases hentry : s.entryFor k with
  | error e =>
    apply Safe.ret
    intro w' hq _
    exact ⟨hq₁.rows.trans hq.rows, [], hq.log.trans hq₁.log, by simp⟩
  | ok entry =>
    apply Safe.bindAction
    apply watched_look (readOnly_readBytes s k)
    intro w₂ fault w₃ _ _ _ hkept hlog
    have hdone : ∀ r : Except Err Manifest, Safe (watching allowed target key c) (.ret r)
        (fun _ w' => NoneRecorded target key w w' ∧
          ∃ new, w'.log = new ++ w.log ∧ ∀ e ∈ new, ∃ x, e = .read s k x) w₃ := by
      intro r w' hq _
      refine ⟨(hq₁.rows.trans hkept).trans hq.rows,
        [.read s k (execCall fault w₂ (.bucket s (.readBytes k))).1], ?_, by simp⟩
      rw [hq.log, hlog, hq₁.log]
      rfl
    cases (execCall fault w₂ (.bucket s (.readBytes k))).1 with
    | error e => exact hdone _
    | ok content => exact hdone _

/-- Reading the manifest that is watched gives what is stored, or a fault was
    allowed. -/
theorem readManifest_watched {entry : Entry} (hentry : s.entryFor key = .ok entry) :
    Safe (watching allowed target key c) (readManifest s key) (fun r w' =>
      NoneRecorded target key w w' ∧ (∃ x, w'.log = .read s key x :: w.log) ∧
        (r = s.decodeManifest key c ∨ ((∃ e, r = .error e) ∧ SomeFault allowed))) w := by
  apply Safe.bindAction
  apply Safe.ret
  intro w₁ hq₁ _
  rw [hentry]
  apply Safe.bindAction
  apply watched_look (readOnly_readBytes s key)
  intro w₂ fault w₃ _ hcontent hallowed hkept hlog
  have hread : ∀ w' : World, Meanwhile target key w₃ w' → NoneRecorded target key w w' ∧
      ∃ x, w'.log = .read s key x :: w.log := by
    intro w' hq
    refine ⟨(hq₁.rows.trans hkept).trans hq.rows,
      (execCall fault w₂ (.bucket s (.readBytes key))).1, ?_⟩
    rw [hq.log, hlog, hq₁.log]
    rfl
  cases fault with
  | none =>
    simp only [execCall, execBucket, hcontent] at hlog ⊢
    apply Safe.ret
    intro w' hq _
    exact ⟨(hread w' hq).1, (hread w' hq).2, Or.inl rfl⟩
  | before =>
    apply Safe.ret
    intro w' hq _
    exact ⟨(hread w' hq).1, (hread w' hq).2, Or.inr ⟨⟨_, rfl⟩, _, _, .before, by simp, hallowed⟩⟩
  | after =>
    apply Safe.ret
    intro w' hq _
    exact ⟨(hread w' hq).1, (hread w' hq).2, Or.inr ⟨⟨_, rfl⟩, _, _, .after, by simp, hallowed⟩⟩

/-! ### Deleting -/

/-- An event other than a call of `Remove`. -/
def Event.Sparing : Event → Prop
  | .removed .. => False
  | _ => True

/-- No row under the key is left. -/
def Dropped (target key : Text) (w : World) : Prop :=
  ∀ b, (target, b) ∈ w.db.bucketBackups → b.manifestKey ≠ key

theorem Dropped.kept {w' : World} (h : Dropped target key w) (hk : NoneRecorded target key w w') :
    Dropped target key w' :=
  fun b hb hkey => h b (hk b hb hkey) hkey

/-- A backup whose manifest is not what its row says is not touched. If the
    client returns the manifest and no call fails, its row is dropped. -/
theorem deleteBackup_watched {installationID : String} {b : BucketBackup} {entry : Entry}
    (hentry : s.entryFor b.manifestKey = .ok entry)
    (hother : ∀ m, s.decodeManifest b.manifestKey c = .ok m →
      ownedManifest installationID b m = false) :
    Safe (watching allowed s.target b.manifestKey c) (deleteBackup s installationID s.target b)
      (fun _ w' => Grew Event.Sparing w w' ∧
        ((∃ m, s.decodeManifest b.manifestKey c = .ok m) → ¬ SomeFault allowed →
          Dropped s.target b.manifestKey w')) w := by
  apply Safe.bindAction
  apply (readManifest_watched hentry).mono
  intro r w₁ ⟨hkept, ⟨x, hlog⟩, hr⟩
  have hread : Grew Event.Sparing w w₁ := ⟨[.read s b.manifestKey x], hlog, by simp [Event.Sparing]⟩
  cases r with
  | error e =>
    apply Safe.ret
    intro w' hq _
    refine ⟨hread.trans ⟨[], hq.log, by simp⟩, fun ⟨m, hm⟩ hfault => ?_⟩
    rcases hr with hr | ⟨-, hf⟩
    · rw [hm] at hr
      cases hr
    · exact absurd hf hfault
  | ok m =>
    have hm : s.decodeManifest b.manifestKey c = .ok m := by
      rcases hr with hr | ⟨⟨e, he⟩, -⟩
      · exact hr.symm
      · cases he
    dsimp only
    rw [hother m hm]
    apply Safe.bindAction
    apply watched_ask
    intro w₂ fault hkept₂ hlog₂ hcontent hallowed
    have hfailed : ∀ w' : World, w'.log = w₁.log → Grew Event.Sparing w w' :=
      fun w' hl => hread.trans ⟨[], hl, by simp⟩
    cases fault with
    | none =>
      refine ⟨hcontent, fun w' hk hl => ?_⟩
      apply Safe.ret
      intro w'' hq _
      have hgone : Dropped s.target b.manifestKey w' := by
        refine Dropped.kept ?_ hk
        intro b' hb' hkey
        exact (Table.mem_delete.mp hb').2 (congrArg (Prod.mk s.target) hkey)
      exact ⟨hfailed w'' (hq.log.trans (hl.trans hlog₂)), fun _ _ => hgone.kept hq.rows⟩
    | before | after =>
      refine ⟨hcontent, fun w' hk hl => ?_⟩
      apply Safe.ret
      intro w'' hq _
      refine ⟨hfailed w'' (hq.log.trans (hl.trans hlog₂)), fun _ hfault => ?_⟩
      exact absurd ⟨_, _, _, by simp, hallowed⟩ hfault

/-! ### Recording again -/

/-- Whether the manifest of an entry is looked at. -/
def Storage.Entry.Readable (e : Entry) : Prop := e.state = .complete ∨ e.state = .manifestOnly

/-- An event other than a listing. -/
def Event.Unlisted : Event → Prop
  | .listed .. => False
  | _ => True

/-- The manifest under a key was read. -/
def Reads (s : Settings) (key : Text) (w w' : World) : Prop :=
  ∃ new x, w'.log = new ++ w.log ∧ .read s key x ∈ new

theorem Reads.later {P : Event → Prop} {w₁ w₂ : World} (h : Reads s key w w₁) (hg : Grew P w₁ w₂) :
    Reads s key w w₂ := by
  obtain ⟨new, x, hnew, hmem⟩ := h
  obtain ⟨later, hlater, -⟩ := hg
  exact ⟨later ++ new, x, by rw [hlater, hnew, List.append_assoc], List.mem_append_right _ hmem⟩

theorem Reads.earlier {P : Event → Prop} {w₁ w₂ : World} (hg : Grew P w w₁)
    (h : Reads s key w₁ w₂) : Reads s key w w₂ := by
  obtain ⟨old, hold, -⟩ := hg
  obtain ⟨new, x, hnew, hmem⟩ := h
  exact ⟨new ++ old, x, by rw [hnew, hold, List.append_assoc], List.mem_append_left _ hmem⟩

/-- What is recorded of an entry if its manifest is the one watched: it was read,
    and the row is not that of a complete backup of the installation. -/
structure ReadAfresh (s : Settings) (installationID : String) (key : Text) (e : Entry)
    (b : BucketBackup) (w w' : World) : Prop where
  manifestKey : b.manifestKey = e.manifestKey
  grew : Grew Event.Unlisted w w'
  read : e.manifestKey = key → e.Readable → Reads s key w w'
  other : e.manifestKey = key → ¬ (b.state = .complete ∧ b.installationID = installationID)

theorem classify_other {installationID : String} {row : BucketBackup} {e : Entry}
    {r : Except Err Manifest} (h : ∀ m, r = .ok m → m.installationID ≠ installationID) :
    ¬ ((classify row e r).state = .complete ∧
      (classify row e r).installationID = installationID) := by
  cases r with
  | error err => exact fun hb => by cases hb.1
  | ok m =>
    simp only [classify]
    cases checkManifest m e with
    | error err => exact fun hb => by cases hb.1
    | ok u => exact fun hb => h m rfl hb.2

theorem readEntry_watched {installationID : String} {entry : Entry}
    (hentry : s.entryFor key = .ok entry)
    (hother : ∀ m, s.decodeManifest key c = .ok m → m.installationID ≠ installationID)
    {recorded : List BucketBackup} (hnone : ∀ b ∈ recorded, b.manifestKey ≠ key) {d : Text}
    {e : Entry} :
    Safe (watching allowed target key c) (readEntry s recorded d e) (fun b w' =>
      NoneRecorded target key w w' ∧ ReadAfresh s installationID key e b w w') w := by
  unfold readEntry
  split
  · next hstate =>
    cases hk : knownOwner recorded e.manifestKey with
    | some previous =>
      obtain ⟨hmem, hkey, -⟩ := knownOwner_eq_some hk
      have hne : e.manifestKey ≠ key := hkey ▸ hnone previous hmem
      apply Safe.ret
      intro w' hq _
      exact ⟨hq.rows, rfl, ⟨[], hq.log, by simp⟩, fun h => absurd h hne, fun h => absurd h hne⟩
    | none =>
      apply Safe.bind
      by_cases hkey : e.manifestKey = key
      · subst hkey
        apply (readManifest_watched hentry).mono
        intro r w₁ ⟨hkept, ⟨x, hlog⟩, hr⟩
        apply Safe.ret
        intro w' hq _
        have hlog' : w'.log = [.read s e.manifestKey x] ++ w.log := hq.log.trans hlog
        refine ⟨hkept.trans hq.rows, (rowOf_classify d hstate r).manifestKey,
          ⟨_, hlog', by simp [Event.Unlisted]⟩, fun _ _ => ⟨_, x, hlog', by simp⟩,
          fun _ => classify_other ?_⟩
        intro m hm
        rcases hr with hr | ⟨⟨err, herr⟩, -⟩
        · exact hother m (hr.symm.trans hm)
        · rw [herr] at hm
          cases hm
      · apply readManifest_look.mono
        intro r w₁ ⟨hkept, new, hlog, hnew⟩
        apply Safe.ret
        intro w' hq _
        refine ⟨hkept.trans hq.rows, (rowOf_classify d hstate r).manifestKey,
          ⟨new, hq.log.trans hlog, fun ev hev => ?_⟩, fun h => absurd h hkey,
          fun h => absurd h hkey⟩
        obtain ⟨x, rfl⟩ := hnew ev hev
        trivial
  · next hstate =>
    apply Safe.ret
    intro w' hq _
    refine ⟨hq.rows, rfl, ⟨[], hq.log, by simp⟩, fun _ h => absurd h hstate, fun _ h => ?_⟩
    exact hstate (Or.inl h.1)

/-- What is recorded of a listing: the row of the manifest watched is not that
    of a complete backup of the installation, and if the listing asks for the
    manifest it was read. -/
structure AllAfresh (s : Settings) (installationID : String) (key : Text) (es : List Entry)
    (bs : List BucketBackup) (w w' : World) : Prop where
  grew : Grew Event.Unlisted w w'
  read : ∀ e ∈ es, e.manifestKey = key → e.Readable → Reads s key w w'
  other : ∀ b ∈ bs, b.manifestKey = key →
    ¬ (b.state = .complete ∧ b.installationID = installationID)

theorem readEntries_watched {installationID : String} {entry : Entry}
    (hentry : s.entryFor key = .ok entry)
    (hother : ∀ m, s.decodeManifest key c = .ok m → m.installationID ≠ installationID)
    {recorded : List BucketBackup} (hnone : ∀ b ∈ recorded, b.manifestKey ≠ key) {d : Text}
    {es : List Entry} :
    Safe (watching allowed target key c) (readEntries s recorded d es) (fun bs w' =>
      NoneRecorded target key w w' ∧ AllAfresh s installationID key es bs w w') w := by
  induction es generalizing w with
  | nil =>
    apply Safe.ret
    intro w' hq _
    exact ⟨hq.rows, ⟨[], hq.log, by simp⟩, by simp, by simp⟩
  | cons e rest ih =>
    apply Safe.bind
    apply (readEntry_watched hentry hother hnone).mono
    intro b w₁ ⟨hkept₁, hb⟩
    apply Safe.bind
    apply ih.mono
    intro bs w₂ ⟨hkept₂, hbs⟩
    apply Safe.ret
    intro w' hq _
    have hlast : Grew Event.Unlisted w₂ w' := ⟨[], hq.log, by simp⟩
    refine ⟨(hkept₁.trans hkept₂).trans hq.rows, (hb.grew.trans hbs.grew).trans hlast, ?_, ?_⟩
    · intro e' he' hkey hreadable
      rcases List.mem_cons.mp he' with rfl | he'
      · exact (hb.read hkey hreadable).later (hbs.grew.trans hlast)
      · exact Reads.earlier hb.grew ((hbs.read e' he' hkey hreadable).later hlast)
    · intro b' hb' hkey
      rcases List.mem_cons.mp hb' with rfl | hb'
      · exact hb.other (hb.manifestKey.symm.trans hkey)
      · exact hbs.other b' hb' hkey

/-- What a pass over a folder has done about the manifest watched. -/
structure FolderAfresh (s : Settings) (installationID : String) (d key : Text) (w w' : World) :
    Prop where
  /-- whenever the listing asks for the manifest, it was read -/
  read : ∃ new, w'.log = new ++ w.log ∧ ∀ objects, .listed (s.databaseRoot d) (.ok objects) ∈ new →
    ∀ e ∈ entriesFrom (s.databaseRoot d) objects, e.manifestKey = key → e.Readable →
      ∃ x, .read s key x ∈ new
  other : ∀ b, (s.target, b) ∈ w'.db.bucketBackups → b.manifestKey = key →
    ¬ (b.state = .complete ∧ b.installationID = installationID)

/-- From a listing on, the log tells of no other. -/
theorem FolderAfresh.of_listing {installationID : String} {d : Text} {objects : List Object}
    {w₁ w₂ : World}
    (hlisted : w₁.log = .listed (s.databaseRoot d) (.ok objects) :: w.log)
    (hgrew : Grew Event.Unlisted w₁ w₂)
    (hread : ∀ e ∈ entriesFrom (s.databaseRoot d) objects, e.manifestKey = key → e.Readable →
      Reads s key w₁ w₂)
    (hother : ∀ b, (s.target, b) ∈ w₂.db.bucketBackups → b.manifestKey = key →
      ¬ (b.state = .complete ∧ b.installationID = installationID)) :
    FolderAfresh s installationID d key w w₂ := by
  obtain ⟨new, hnew, hunlisted⟩ := hgrew
  refine ⟨⟨new ++ [.listed (s.databaseRoot d) (.ok objects)], ?_, ?_⟩, hother⟩
  · rw [hnew, hlisted, List.append_assoc]
    rfl
  · intro objects' hmem e he hkey hreadable
    have hsame : objects' = objects := by
      rcases List.mem_append.mp hmem with hmem | hmem
      · exact absurd (hunlisted _ hmem) (fun h => h)
      · simpa using hmem
    subst hsame
    obtain ⟨new', x, hnew', hx⟩ := hread e he hkey hreadable
    rw [hnew] at hnew'
    rw [List.append_cancel_right hnew']
    exact ⟨x, List.mem_append_left _ hx⟩

theorem reconcilePrefix_watched {installationID : String} {entry : Entry}
    (hentry : s.entryFor key = .ok entry)
    (hother : ∀ m, s.decodeManifest key c = .ok m → m.installationID ≠ installationID) {d : Text}
    (hdropped : Dropped s.target key w) :
    Safe (watching allowed s.target key c) (reconcilePrefix s s.target d) (fun r w' =>
      r = .ok () → FolderAfresh s installationID d key w w') w := by
  have hstop : ∀ (e : Err) (w₁ : World), Safe (watching allowed s.target key c)
      (.ret (.error e : Except Err Unit)) (fun r w' =>
        r = .ok () → FolderAfresh s installationID d key w w') w₁ :=
    fun e w₁ => Safe.ret (fun w' _ _ hr => by cases hr)
  apply Safe.bindAction
  unfold listBackups
  split
  · apply Safe.ret
    intro w₁ _ _
    exact hstop _ w₁
  · apply Safe.bindAction
    apply watched_look (readOnly_listObjects s (s.databaseRoot d) true)
    intro w₀ fault w₁ _ _ _ hkept₁ hlog₁
    cases hlist : (execCall fault w₀ (.bucket s (.listObjects (s.databaseRoot d) true))).1 with
    | error e =>
      apply Safe.ret
      intro w₂ _ _
      exact hstop e w₂
    | ok objects =>
      rw [hlist] at hlog₁
      apply Safe.ret
      intro w₂ hq₂ _
      apply Safe.bindAction
      apply watched_look (readOnly_store (fun _ => rfl) (by simp [observeStore, Event.Plain]) rfl)
      intro w₃ fault w₄ hkept₃ _ _ hkept₄ hlog₄
      have hlisted : w₂.log = .listed (s.databaseRoot d) (.ok objects) :: w.log :=
        hq₂.log.trans hlog₁
      cases hrows : (execCall fault w₃ (.store (.prefixBackups s.target d))).1 with
      | error e => exact hstop e w₄
      | ok recorded =>
        rw [hrows] at hlog₄
        have hdropped₃ : Dropped s.target key w₃ :=
          hdropped.kept ((hkept₁.trans hq₂.rows).trans hkept₃)
        have hnone : ∀ b ∈ recorded, b.manifestKey ≠ key := by
          cases fault with
          | none =>
            obtain rfl := Except.ok.inj hrows
            exact fun b hb => hdropped₃ b (Database.mem_prefixBackups.mp hb).1
          | before => cases hrows
          | after => cases hrows
        have hgrew₄ : Grew Event.Unlisted w₂ w₄ :=
          ⟨[.rows s.target d recorded], hlog₄, by simp [Event.Unlisted]⟩
        have hdropped₄ : Dropped s.target key w₄ :=
          hdropped.kept ((hkept₁.trans hq₂.rows).trans hkept₄)
        apply Safe.bindAction
        apply Safe.lift
        apply (readEntries_watched hentry hother hnone).mono
        rintro bs w₅ ⟨hkept₅, hbs⟩
        apply Safe.ret
        intro w₆ hq₆ _
        apply Safe.bindAction
        apply Safe.lift
        apply watched_look readOnly_now
        intro w₇ fault w₈ _ _ _ hkept₈ hlog₈
        apply Safe.ret
        intro w₉ hq₉ _
        have hgrew₉ : Grew Event.Unlisted w₅ w₉ :=
          ⟨[.time w₇.clock], by rw [hq₉.log, hlog₈, hq₆.log]; rfl, by simp [Event.Unlisted]⟩
        have hdropped₉ : Dropped s.target key w₉ :=
          hdropped₄.kept (((hkept₅.trans hq₆.rows).trans hkept₈).trans hq₉.rows)
        apply watched_ask
        intro w₁₀ fault hkept₁₀ hlog₁₀ hcontent _
        have hfailed : ∀ {r : Except Err Unit}, r = .error .driver → r = .ok () → False :=
          fun h h' => by cases h.symm.trans h'
        cases fault with
        | before | after => exact ⟨hcontent, fun w' _ _ hr => (hfailed rfl hr).elim⟩
        | none =>
          refine ⟨hcontent, fun w' hkept' hlog' _ => ?_⟩
          have hgrew' : Grew Event.Unlisted w₉ w' :=
            ⟨[.recorded s.target d bs], by rw [hlog', ← hlog₁₀]; rfl, by simp [Event.Unlisted]⟩
          have hrest : Grew Event.Unlisted w₅ w' := hgrew₉.trans hgrew'
          refine FolderAfresh.of_listing hlisted ((hgrew₄.trans hbs.grew).trans hrest) ?_ ?_
          · intro e he hkey hreadable
            exact Reads.earlier hgrew₄ ((hbs.read e he hkey hreadable).later hrest)
          · intro b hb hkey
            have hrow := hkept' b hb hkey
            rcases Database.mem_replaceRows hrow with ⟨b₀, hb₀, k, heq, -⟩ | ⟨hold, -, -⟩
            · obtain rfl := (Prod.mk.inj heq).2
              exact hbs.other b₀ hb₀ hkey
            · exact absurd hkey (hdropped₉ b (hkept₁₀ b hold hkey))

end

/-! ### What becomes of a manifest that was written over -/

/-- What is promised of a backup that is about to be deleted though its manifest
    has been written over: nothing is removed, whatever fails; its row is dropped
    unless a call fails; and a later pass over the folder that succeeds reads the
    manifest and does not record a complete backup of the installation. -/
structure ReadAgain (s : Settings) (installationID : String) (d : Text) (b : BucketBackup)
    (w : World) : Prop where
  spared : ∀ r w', Trace (answers anyFault) (Meanwhile s.target b.manifestKey)
    (deleteBackup s installationID s.target b) w (some r) w' → Grew Event.Sparing w w'
  dropped : ∀ r w', Trace (answers faultless) (Meanwhile s.target b.manifestKey)
    (deleteBackup s installationID s.target b) w (some r) w' → Dropped s.target b.manifestKey w'
  afresh : ∀ r w₁ w₂, Trace (answers faultless) (Meanwhile s.target b.manifestKey)
    (deleteBackup s installationID s.target b) w (some r) w₁ →
    Trace (answers anyFault) (Meanwhile s.target b.manifestKey) (reconcilePrefix s s.target d)
      w₁ (some (.ok ())) w₂ → FolderAfresh s installationID d b.manifestKey w₁ w₂

theorem not_someFault_faultless : ¬ SomeFault faultless :=
  fun ⟨_, _, _, hne, hnone⟩ => hne hnone

section
variable {s : Settings} {installationID : String} {d name : Text} {b : BucketBackup} {c : Content}
variable {w : World}

/-- The check before a deletion fails for a manifest that was written over. -/
theorem Replaced.notOwned (h : Replaced installationID b c) (hdir : DirectoryOf s d name b)
    (hd : validDatabaseSegment d = true) {m : Manifest}
    (hm : s.decodeManifest b.manifestKey c = .ok m) : ownedManifest installationID b m = false := by
  obtain ⟨-, m₀, hm₀, rfl, hcheck⟩ := (hdir.decodeManifest_iff hd).mp hm
  unfold ownedManifest
  rcases h m₀ hm₀ with hno | hno | hno
  · exact absurd hcheck hno
  · simp [hno]
  · simp [hno]

/-- Runs among others that leave the manifest alone. -/
theorem watched_trace {allowed : ∀ ⦃β : Type⦄, Call β → Fault → Prop} {α : Type} {p : Run α}
    {Q : α → World → Prop} {target key : Text} {w' : World} {r : α}
    (hsafe : Safe (watching allowed target key c) p Q w) (hcontent : w.content key = some c)
    (hrun : Trace (answers allowed) (Meanwhile target key) p w (some r) w') :
    w'.content key = some c ∧ Q r w' := by
  have hkeep : ∀ w₁ w₂, Meanwhile target key w₁ w₂ → w₁.content key = some c →
      w₂.content key = some c := fun _ _ hm hi => hm.content.trans hi
  obtain ⟨hi, hQ⟩ := Safe.trace (S := watching allowed target key c) (fun _ _ h => h) hkeep hrun
    hcontent hsafe
  exact ⟨hi, hQ r rfl⟩

theorem OtherInstallation.readAgain (h : OtherInstallation installationID b c)
    (hdir : DirectoryOf s d name b) (hd : validDatabaseSegment d = true)
    (hcontent : w.content b.manifestKey = some c) (hreplaced : Replaced installationID b c) :
    ReadAgain s installationID d b w := by
  obtain ⟨hsize, m₀, hm₀, hcheck, hother⟩ := h
  obtain ⟨entry, hentry, -⟩ := hdir.entryFor hd
  have hdecode : s.decodeManifest b.manifestKey c =
      .ok { m₀ with manifestKey := b.manifestKey } :=
    (hdir.decodeManifest_iff hd).mpr ⟨hsize, m₀, hm₀, rfl, hcheck⟩
  have hnames : ∀ m, s.decodeManifest b.manifestKey c = .ok m →
      m.installationID ≠ installationID := by
    intro m hm
    rw [hdecode] at hm
    obtain rfl := Except.ok.inj hm
    exact hother
  have hdeletes : ∀ allowed : ∀ ⦃β : Type⦄, Call β → Fault → Prop,
      Safe (watching allowed s.target b.manifestKey c) (deleteBackup s installationID s.target b)
        (fun _ w' => Grew Event.Sparing w w' ∧
          ((∃ m, s.decodeManifest b.manifestKey c = .ok m) → ¬ SomeFault allowed →
            Dropped s.target b.manifestKey w')) w :=
    fun _ => deleteBackup_watched hentry (fun m hm => hreplaced.notOwned hdir hd hm)
  have hdrops : ∀ r w', Trace (answers faultless) (Meanwhile s.target b.manifestKey)
      (deleteBackup s installationID s.target b) w (some r) w' →
      w'.content b.manifestKey = some c ∧ Dropped s.target b.manifestKey w' := by
    intro r w' hrun
    obtain ⟨hi, -, hdropped⟩ := watched_trace (hdeletes faultless) hcontent hrun
    exact ⟨hi, hdropped ⟨_, hdecode⟩ not_someFault_faultless⟩
  constructor
  · intro r w' hrun
    exact (watched_trace (hdeletes anyFault) hcontent hrun).2.1
  · exact fun r w' hrun => (hdrops r w' hrun).2
  · intro r w₁ w₂ hdelete hpass
    obtain ⟨hi, hdropped⟩ := hdrops r w₁ hdelete
    exact (watched_trace (reconcilePrefix_watched hentry hnames hdropped) hi hpass).2 rfl

/-- A manifest that the client does not return ends the deletion, and nothing
    more happens. -/
theorem deleteBackup_refused {allowed : ∀ ⦃β : Type⦄, Call β → Fault → Prop} {γ : Type}
    {steady : Orders → γ} (hnone : (w.manifestAt s b.manifestKey).toOption = none) :
    Safe (alone allowed steady (fun _ => True)) (deleteBackup s installationID s.target b)
      (fun _ w' => Unmoved steady w w') w := by
  apply Safe.bindAction
  apply (readManifest_alone (fun _ _ _ _ => trivial)).mono
  intro r w₁ ⟨hm, hr⟩
  cases r with
  | error e => exact Safe.ret (fun w' hq _ => hm.trans hq.unmoved)
  | ok m =>
    rcases hr with hread | ⟨⟨e, he⟩, -⟩
    · rw [hread.stored] at hnone
      cases hnone
    · cases he

/-- A run to the end in which no call fails and nobody else does anything. -/
def faultlessly {α : Type} (p : Run α) (w : World) : α × World :=
  p.run (fun _ w c => exec .none w c) w

theorem run_faultless {α : Type} (p : Run α) (w : World)
    (allowed : ∀ ⦃β : Type⦄, Call β → Fault → Prop)
    (hallowed : ∀ ⦃β : Type⦄ (c : Call β), allowed c .none) (env : World → World → Prop) :
    Trace (answers allowed) env p w (some (faultlessly p w).1) (faultlessly p w).2 :=
  Prog.run_trace (fun _ w c => exec_answers (hallowed c) w) p w

/-- Then the row stays. -/
theorem ReadAgain.decodes (h : ReadAgain s installationID d b w)
    (hcontent : w.content b.manifestKey = some c) (hrow : (s.target, b) ∈ w.db.bucketBackups) :
    ∃ m, s.decodeManifest b.manifestKey c = .ok m := by
  cases hdecode : s.decodeManifest b.manifestKey c with
  | ok m => exact ⟨m, rfl⟩
  | error e =>
    have hnone : (w.manifestAt s b.manifestKey).toOption = none := by
      simp [World.manifestAt, hcontent, hdecode, Except.toOption]
    have hrun := run_faultless (deleteBackup s installationID s.target b) w faultless
      (fun _ _ => rfl)
    have hdropped := h.dropped _ _ (hrun _)
    have hsafe : Safe (alone faultless (fun _ => ()) (fun _ => True))
        (deleteBackup s installationID s.target b) (fun _ w' => Unmoved (fun _ => ()) w w') w :=
      deleteBackup_refused hnone
    have hsame := (Safe.trace (S := alone faultless (fun _ => ()) (fun _ => True))
      (fun _ _ h => h) (fun _ _ _ _ => trivial) (hrun _) trivial hsafe).2 _ rfl
    have hview := World.view_of_core hsame.core
    exact absurd rfl (hdropped b (hview ▸ hrow))

/-- The bucket holds the two objects of a row and nothing else. -/
def World.onlyBackup (w : World) (b : BucketBackup) (c : Content) : World :=
  { w with objects := [(b.manifestKey, c), (b.archiveKey, ⟨0, none⟩)] }

theorem World.onlyBackup_content (w : World) (b : BucketBackup) (c : Content) :
    (w.onlyBackup b c).content b.manifestKey = some c := by
  simp [World.content, World.onlyBackup, Table.find]

/-- Its directory is then listed as complete. -/
theorem DirectoryOf.complete_entry (h : DirectoryOf s d name b) :
    ∃ e ∈ (w.onlyBackup b c).entries s d, e.manifestKey = b.manifestKey ∧ e.state = .complete ∧
      ∀ m, checkManifest m e = checkManifest m b.entry := by
  have hfile : ∀ file, '/' ∉ file → (HasFile (s.databaseRoot d)
      ((w.onlyBackup b c).listing (s.databaseRoot d) true) name file ↔
        file = manifestFile ∨ file = archiveFile) := by
    intro file hslash
    rw [World.hasFile_iff h.slash hslash, World.content_isSome]
    have hkeys : ∀ f, s.databaseRoot d ++ name ++ '/' :: file = fileKey s d name f ↔ file = f := by
      intro f
      simp [fileKey]
    simp only [World.onlyBackup, List.mem_cons, List.not_mem_nil, or_false, Prod.mk.injEq,
      h.manifestKey, h.archiveKey, hkeys]
    constructor
    · rintro ⟨c', ⟨hf, -⟩ | ⟨hf, -⟩⟩
      · exact Or.inl hf
      · exact Or.inr hf
    · rintro (hf | hf)
      · exact ⟨_, Or.inl ⟨hf, rfl⟩⟩
      · exact ⟨_, Or.inr ⟨hf, rfl⟩⟩
  have hm := (hfile manifestFile (by decide)).mpr (Or.inl rfl)
  have ha := (hfile archiveFile (by decide)).mpr (Or.inr rfl)
  obtain ⟨e, he, hof⟩ := exists_entry hm
  refine ⟨e, he, hof.manifestKey.trans h.manifestKey.symm,
    (hof.complete_iff_expected h.parses ha hm).mpr ?_, ?_⟩
  · rintro ⟨file, hna, hnm, hhas⟩
    exact ((hfile file hhas.slash.2).mp hhas).elim hnm hna
  · intro m
    exact checkManifest_congr (hof.directory.trans h.entry_directory.symm)
      (hof.manifestKey.trans h.manifestKey.symm) (hof.archiveKey.trans h.archiveKey.symm)

/-- Without faults, an entry whose owner is not known gets the row its manifest
    says. -/
theorem Classified.fresh {recorded : List BucketBackup} {log : List Event} {e : Entry}
    (h : Classified faultless w s recorded d log e b) (hstate : e.state = .complete)
    (hnone : ∀ b ∈ recorded, b.manifestKey ≠ e.manifestKey) {m : Manifest}
    (hm : w.manifestAt s e.manifestKey = .ok m) (hcheck : checkManifest m e = .ok ()) :
    b = (e.row d).withManifest m := by
  cases h with
  | unread h => exact absurd (Or.inl hstate) h
  | known h previous hk =>
    obtain ⟨hmem, hkey, -⟩ := knownOwner_eq_some hk
    exact absurd hkey (hnone previous hmem)
  | failed h hk hf => exact absurd hf.some not_someFault_faultless
  | read h hk r hr =>
    have hresult := hr.result
    rw [hm] at hresult
    cases r with
    | error err => cases hresult
    | ok m' =>
      obtain rfl : m' = m := Option.some.inj hresult
      simp only [classify, hcheck]

/-- A pass without faults over that bucket records what the manifest says. -/
theorem records_manifest (hdir : DirectoryOf s d name b) (hd : validDatabaseSegment d = true)
    (hdropped : Dropped s.target b.manifestKey w) {m : Manifest}
    (hm : s.decodeManifest b.manifestKey c = .ok m) :
    ∃ w', (∀ env, Trace (answers anyFault) env (reconcilePrefix s s.target d) (w.onlyBackup b c)
        (some (.ok ())) w') ∧
      ∃ b', (s.target, b') ∈ w'.db.bucketBackups ∧ b'.manifestKey = b.manifestKey ∧
        b'.state = .complete ∧ b'.installationID = m.installationID := by
  have hsafe : Safe (alone faultless (fun _ => ()) (fun _ => True)) (reconcilePrefix s s.target d)
      _ (w.onlyBackup b c) :=
    reconcilePrefix_alone (fun _ _ _ _ => trivial) (fun _ _ _ _ _ _ _ => trivial)
  obtain ⟨-, hends⟩ := Safe.trace (S := alone faultless (fun _ => ()) (fun _ => True))
    (fun _ _ h => h) (fun _ _ _ _ => trivial)
    (run_faultless (reconcilePrefix s s.target d) (w.onlyBackup b c) faultless (fun _ _ => rfl) _)
    trivial hsafe
  have hpass := run_faultless (reconcilePrefix s s.target d) (w.onlyBackup b c) anyFault
    (fun _ _ => trivial)
  rcases hends _ rfl with ⟨hok, hfolder⟩ | ⟨-, -, hfault | hinvalid⟩
  · rw [hok] at hpass
    refine ⟨_, hpass, ?_⟩
    obtain ⟨bs, now, hrows, hcore⟩ := hfolder.written
    obtain ⟨e, he, hkey, hstate, hcheck⟩ := hdir.complete_entry (w := w) (c := c)
    obtain ⟨b₀, hb₀, hclass⟩ := Table.exists_right hrows he
    obtain ⟨k, hrow⟩ := Database.mem_replaceRows_of_mem
      (rowOf_keys_nodup (hrows.imp (fun _ _ h => h.rowOf))) hb₀
    have hnone : ∀ b' ∈ (w.onlyBackup b c).db.prefixBackups s.target d,
        b'.manifestKey ≠ e.manifestKey := by
      intro b' hb'
      rw [hkey]
      exact hdropped b' (Database.mem_prefixBackups.mp hb').1
    have hread : (w.onlyBackup b c).manifestAt s e.manifestKey = .ok m := by
      rw [hkey, World.manifestAt, World.onlyBackup_content]
      exact hm
    obtain ⟨-, m₀, -, -, hvalid⟩ := (hdir.decodeManifest_iff hd).mp hm
    obtain rfl := hclass.fresh hstate hnone hread ((hcheck m).trans hvalid)
    refine ⟨{ (e.row d).withManifest m with deleteStartedAt := k }, ?_, hkey, hstate, rfl⟩
    exact (congrArg (fun core : Core => _ ∈ core.view) hcore).mpr hrow
  · exact absurd hfault not_someFault_faultless
  · rw [hd] at hinvalid
    cases hinvalid

/-- What is read again names another installation. -/
theorem ReadAgain.otherInstallation (h : ReadAgain s installationID d b w)
    (hdir : DirectoryOf s d name b) (hd : validDatabaseSegment d = true)
    (hcontent : w.content b.manifestKey = some c) (hreplaced : Replaced installationID b c)
    (hrow : (s.target, b) ∈ w.db.bucketBackups) : OtherInstallation installationID b c := by
  obtain ⟨m, hm⟩ := h.decodes hcontent hrow
  obtain ⟨hsize, m₀, hm₀, rfl, hcheck⟩ := (hdir.decodeManifest_iff hd).mp hm
  refine ⟨hsize, m₀, hm₀, hcheck, fun hsame => ?_⟩
  -- otherwise a pass that finds both objects records a complete backup of the installation
  obtain ⟨entry, hentry, -⟩ := hdir.entryFor hd
  obtain ⟨r, w₁, hdelete⟩ : ∃ r w₁, Trace (answers faultless) (Meanwhile s.target b.manifestKey)
      (deleteBackup s installationID s.target b) w (some r) w₁ :=
    ⟨_, _, run_faultless _ w faultless (fun _ _ => rfl) _⟩
  obtain ⟨hcontent₁, -⟩ := watched_trace
    (deleteBackup_watched hentry (fun m hm => hreplaced.notOwned hdir hd hm)) hcontent hdelete
  obtain ⟨w', hpass, b', hb', hkey, hstate, howner⟩ :=
    records_manifest hdir hd (h.dropped r w₁ hdelete) hm
  have hmeanwhile : Meanwhile s.target b.manifestKey w₁ (w₁.onlyBackup b c) :=
    ⟨(w₁.onlyBackup_content b c).trans hcontent₁.symm, fun _ hb _ => hb, rfl⟩
  have hfresh := h.afresh r w₁ w' hdelete (Trace.env hmeanwhile (hpass _))
  exact hfresh.other b' hb' hkey ⟨hstate, howner.trans hsame⟩

/-- For a backup that retention selects, recorded as complete, and a manifest
    that has been written over since: nothing is removed, the row is dropped and
    the next pass reads the manifest afresh, exactly if the client accepts what
    is stored now and it names another installation. -/
theorem replaced_read_again_iff {policy : BackupPolicy} {now : Instant}
    (hd : validDatabaseSegment d = true) (hrecorded : b.RecordedIn s d)
    (hexpired : b ∈ selectExpired (w.db.prefixBackups s.target d) policy now)
    (hcontent : w.content b.manifestKey = some c) (hreplaced : Replaced installationID b c) :
    ReadAgain s installationID d b w ↔ OtherInstallation installationID b c := by
  obtain ⟨hmem, hstate⟩ := complete_of_mem_selectExpired hexpired
  obtain ⟨name, hdir⟩ := hrecorded.directory hstate
  constructor
  · intro h
    exact h.otherInstallation hdir hd hcontent hreplaced (Database.mem_prefixBackups.mp hmem).1
  · intro h
    exact h.readAgain hdir hd hcontent hreplaced

end

/-- Two backups are recorded while the policy keeps two days. Then the manifest
    of the older one is written over, and the policy keeps one day. -/
def olderReplaced (c : Content) : World :=
  let recorded := playPass noFaults vault "home"
    { twoBackups with db := { policy := ⟨24, 2, 0, -1⟩ } }
  let replaced := recorded.put (appManifest "20240101T000000Z") c
  { replaced with db := { replaced.db with policy := ⟨24, 1, 0, -1⟩ } }

/-- The row of the older backup. -/
def olderRow : BucketBackup :=
  { (appEntry "20240101T000000Z" 1704067200).row "app".toList with
    installationID := "home", projectID := "p1", projectName := "app", postgresVersion := "17" }

/-- A manifest of the older backup. -/
def olderManifest (version : ℤ) (installationID : String) : Content :=
  ⟨512, some
    { version := version, installationID := installationID, projectID := "p1", projectName := "app"
      dbName := "app".toList, postgresVersion := "17", createdAt := ofUnix 1704067200
      archiveKey := appArchive "20240101T000000Z" }⟩

theorem olderRow_recorded : olderRow.RecordedIn vault "app".toList := by
  refine ⟨(olderReplaced (olderManifest 1 "home")).listing (vault.databaseRoot "app".toList) true,
    appEntry "20240101T000000Z" 1704067200, by decide +kernel, ?_⟩
  exact ⟨rfl, rfl, rfl, rfl, rfl, Or.inl rfl⟩

theorem olderManifest_replaced {version : ℤ} {installationID : String}
    (h : version ≠ 1 ∨ installationID ≠ "home") :
    Replaced "home" olderRow (olderManifest version installationID) := by
  intro m hm
  obtain rfl := Option.some.inj hm
  rcases h with h | h
  · left
    unfold checkManifest
    rw [if_pos h]
    exact nofun
  · exact Or.inr (Or.inl h)

theorem replaced_read_again_away :
    olderRow ∈ selectExpired ((olderReplaced (olderManifest 1 "away")).db.prefixBackups
      vault.target "app".toList) ⟨24, 1, 0, -1⟩ (ofUnix 1704844800) ∧
    ReadAgain vault "home" "app".toList olderRow (olderReplaced (olderManifest 1 "away")) := by
  have hexpired : olderRow ∈ selectExpired
      ((olderReplaced (olderManifest 1 "away")).db.prefixBackups vault.target "app".toList)
      ⟨24, 1, 0, -1⟩ (ofUnix 1704844800) := by decide +kernel
  refine ⟨hexpired, (replaced_read_again_iff (c := olderManifest 1 "away") (by decide)
    olderRow_recorded hexpired (by decide +kernel)
    (olderManifest_replaced (Or.inr (by decide)))).mpr ?_⟩
  exact ⟨by decide, _, rfl, by decide +kernel, by decide⟩

/-- A manifest of an unknown version is not accepted by the client, so the
    deletion ends with an error: the row stays, and the next pass does not read
    the manifest but records a complete backup as before. -/
theorem replaced_kept_as_complete :
    (olderReplaced (olderManifest 2 "home")).content olderRow.manifestKey =
      some (olderManifest 2 "home") ∧
    Replaced "home" olderRow (olderManifest 2 "home") ∧ olderRow.RecordedIn vault "app".toList ∧
    olderRow ∈ selectExpired ((olderReplaced (olderManifest 2 "home")).db.prefixBackups
      vault.target "app".toList) ⟨24, 1, 0, -1⟩ (ofUnix 1704844800) ∧
    ∃ r w₁ w₂, Trace (answers faultless) (Meanwhile vault.target olderRow.manifestKey)
        (deleteBackup vault "home" vault.target olderRow)
        (olderReplaced (olderManifest 2 "home")) (some r) w₁ ∧
      (vault.target, olderRow) ∈ w₁.db.bucketBackups ∧
      Trace (answers faultless) (Meanwhile vault.target olderRow.manifestKey)
        (reconcilePrefix vault vault.target "app".toList) w₁ (some (.ok ())) w₂ ∧
      (vault.target, olderRow) ∈ w₂.db.bucketBackups := by
  let w := olderReplaced (olderManifest 2 "home")
  let w₁ := (faultlessly (deleteBackup vault "home" vault.target olderRow) w).2
  let pass := faultlessly (reconcilePrefix vault vault.target "app".toList) w₁
  have hpass : Trace (answers faultless) (Meanwhile vault.target olderRow.manifestKey)
      (reconcilePrefix vault vault.target "app".toList) w₁ (some (.ok ())) pass.2 := by
    have hok : pass.1 = .ok () := by decide +kernel
    rw [← hok]
    exact run_faultless _ w₁ faultless (fun _ _ => rfl) _
  exact ⟨by decide +kernel, olderManifest_replaced (Or.inl (by decide)), olderRow_recorded,
    by decide +kernel, _, w₁, pass.2, run_faultless _ w faultless (fun _ _ => rfl) _,
    by decide +kernel, hpass, by decide +kernel⟩

end Pgfy
