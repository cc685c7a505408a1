import Pgfy.Jobs.Deletes

/-! # The newest backup of a folder survives a pass

    Which backup of a folder is the newest is decided from the rows of the view,
    and a row keeps the owner that was recorded when its key was first seen. The
    newest backup that is still this installation's survives, unless a newer
    directory is recorded as this installation's and is not any more: then the
    scan keeps that one, and the check before a delete looks at the backup to be
    deleted only.
-/

namespace Pgfy

open Calendar Storage Program

/-! ### Backups as they are stored now -/

namespace World

/-- The stored manifest of an entry passes `checkManifest` and names the
    installation. -/
def owns (w : World) (s : Settings) (installationID : String) (e : Entry) : Bool :=
  match w.manifestAt s e.manifestKey with
  | .ok m => (checkManifest m e).isOk && m.installationID = installationID
  | .error _ => false

/-- The complete backups of a folder that are the installation's. -/
def ownBackups (w : World) (s : Settings) (installationID : String) (d : Text) : List Entry :=
  (w.entries s d).filter (fun e => e.state = .complete ∧ w.owns s installationID e)

/-- The newest of them. -/
def NewestOwn (w : World) (s : Settings) (installationID : String) (d : Text) (e : Entry) : Prop :=
  e ∈ w.ownBackups s installationID d ∧
    ∀ e' ∈ w.ownBackups s installationID d, (e'.row d).stamp ≤ (e.row d).stamp

/-- A newer complete directory of the folder is recorded as the installation's. -/
def RecordedAbove (w : World) (s : Settings) (installationID : String) (d : Text) (e : Entry) :
    Prop :=
  ∃ e' ∈ w.entries s d, e'.state = .complete ∧ (e.row d).stamp < (e'.row d).stamp ∧
    ∃ b ∈ w.db.prefixBackups s.target d, b.manifestKey = e'.manifestKey ∧
      b.installationID = installationID

end World

/-! ### What keeps a backup safe -/

/-- The content of two objects is still what it was. -/
def Untouched (e : Entry) (w w' : World) : Prop :=
  w'.content e.manifestKey = w.content e.manifestKey ∧
    w'.content e.archiveKey = w.content e.archiveKey

/-- A row that keeps retention away from its folder. -/
def BucketBackup.Blocks (b : BucketBackup) (installationID : String) : Prop :=
  b.state = .damaged ∨ (b.state = .complete ∧ b.installationID ≠ installationID)

theorem blocked_of_mem {installationID : String} {rows : List BucketBackup} {b : BucketBackup}
    (hb : b ∈ rows) (h : b.Blocks installationID) :
    blockedByForeignContent rows installationID = true := by
  unfold blockedByForeignContent
  refine List.any_eq_true.mpr ⟨b, hb, ?_⟩
  rcases h with h | ⟨h, h'⟩
  · simp [h]
  · simp [h, h']

/-- The rows of the recorded folders are where they say, and the row of `e` is
    not one of a delete under way. -/
structure InPlace (s : Settings) (names : List Text) (e : Entry) (w : World) : Prop where
  placed : ∀ b, (s.target, b) ∈ w.db.bucketBackups → b.dbName ∈ names → InFolder s b.dbName b
  started : ∀ b, (s.target, b) ∈ w.db.bucketBackups → b.manifestKey = e.manifestKey →
    b.state ≠ .archiveOnly

/-- A row under `key` blocks the folder. -/
structure BlockedBy (s : Settings) (installationID : String) (d key : Text) (w : World) : Prop where
  there : ∃ b, (s.target, b) ∈ w.db.bucketBackups ∧ b.dbName = d ∧ b.manifestKey = key
  blocks : ∀ b, (s.target, b) ∈ w.db.bucketBackups → b.manifestKey = key → b.Blocks installationID

/-- No complete row of the folder is newer. -/
def NoneNewer (s : Settings) (d : Text) (e : Entry) (w : World) : Prop :=
  ∀ b, (s.target, b) ∈ w.db.bucketBackups → b.dbName = d → b.state = .complete →
    b.stamp ≤ (e.row d).stamp

section
variable {s : Settings} {names : List Text} {e : Entry} {d key : Text} {w w' : World}
variable {installationID : String}

theorem InPlace.touched (h : InPlace s names e w) (hkey : key ≠ e.manifestKey)
    (ht : Touched s.target key w.db.bucketBackups w'.db.bucketBackups) :
    InPlace s names e w' := by
  constructor
  · intro b hb hname
    rcases ht.origin _ hb with hb | ⟨b₀, k, state, hb₀, -, hrow, -⟩
    · exact h.placed b hb hname
    · obtain rfl := (Prod.mk.inj hrow).2
      exact h.placed b₀ hb₀ hname
  · intro b hb hm
    rcases ht.origin _ hb with hb | ⟨b₀, k, state, hb₀, hkey₀, hrow, -⟩
    · exact h.started b hb hm
    · obtain rfl := (Prod.mk.inj hrow).2
      exact absurd (hkey₀.symm.trans hm) hkey

theorem BlockedBy.touched {key' : Text} (h : BlockedBy s installationID d key w)
    (hkey : key' ≠ key)
    (ht : Touched s.target key' w.db.bucketBackups w'.db.bucketBackups) :
    BlockedBy s installationID d key w' := by
  constructor
  · obtain ⟨b, hb, hdb, hm⟩ := h.there
    refine ⟨b, ht.rest _ hb (fun hrow => ?_), hdb, hm⟩
    exact hkey ((Prod.mk.inj hrow).2.symm.trans hm)
  · intro b hb hm
    rcases ht.origin _ hb with hb | ⟨b₀, k, state, hb₀, hkey₀, hrow, -⟩
    · exact h.blocks b hb hm
    · obtain rfl := (Prod.mk.inj hrow).2
      exact absurd (hkey₀.symm.trans hm) hkey

theorem NoneNewer.touched (h : NoneNewer s d e w)
    (ht : Touched s.target key w.db.bucketBackups w'.db.bucketBackups) : NoneNewer s d e w' := by
  intro b hb hdb hstate
  rcases ht.origin _ hb with hb | ⟨b₀, k, state, hb₀, -, hrow, hwhich⟩
  · exact h b hb hdb hstate
  · obtain rfl := (Prod.mk.inj hrow).2
    -- a changed row is complete only if it was
    have hwas : b₀.state = .complete := by
      rcases hwhich with rfl | rfl
      · exact hstate
      · cases hstate
    exact h b₀ hb₀ hdb hwas

/-- What a pass keeps while retention is under way, with what guards the folder
    of `e` as `H`. -/
def Guarded (s : Settings) (names : List Text) (e : Entry) (H : World → Prop) (w₀ w : World) :
    Prop :=
  Untouched e w₀ w ∧ InPlace s names e w ∧ H w

variable {H : World → Prop} {w₀ : World}

theorem Guarded.onBucket (hH : ∀ w w' : World, w'.db.bucketBackups = w.db.bucketBackups →
    H w → H w') : OnBucket (Guarded s names e H w₀) := by
  intro w w' hobjects hview ⟨hsame, hplaced, hw⟩
  refine ⟨?_, ?_, hH w w' hview hw⟩
  · rw [Untouched, World.content_congr hobjects, World.content_congr hobjects]
    exact hsame
  · constructor
    · rw [hview]
      exact hplaced.placed
    · rw [hview]
      exact hplaced.started

/-- The delete of a backup in another directory. -/
theorem Guarded.deletable {d' : Text} {b : BucketBackup} (hd : validDatabaseSegment d = true)
    (he : InFolder s d (e.row d)) (hd' : validDatabaseSegment d' = true) (hb : InFolder s d' b)
    (hne : b.manifestKey ≠ e.manifestKey)
    (hview : ∀ w w' : World, w'.db.bucketBackups = w.db.bucketBackups → H w → H w')
    (hH : ∀ w w' : World, Touched s.target b.manifestKey w.db.bucketBackups w'.db.bucketBackups →
      H w → H w') : Deletable (Guarded s names e H w₀) s.target b := by
  constructor
  · intro w key hkey ⟨hsame, hplaced, hw⟩
    have hkeys : e.manifestKey ≠ key ∧ e.archiveKey ≠ key :=
      InFolder.keys_ne hd hd' he hb hne hkey
    refine ⟨?_, ⟨hplaced.placed, hplaced.started⟩, hview w _ rfl hw⟩
    rw [Untouched, World.content_without hkeys.1, World.content_without hkeys.2]
    exact hsame
  · intro w view ht ⟨hsame, hplaced, hw⟩
    exact ⟨hsame, hplaced.touched hne ht, hH w _ ht hw⟩

/-- A row of a folder is in the folder. -/
theorem InPlace.inFolder (h : InPlace s names e w) (hd : d ∈ names) {b : BucketBackup}
    (hb : b ∈ w.db.prefixBackups s.target d) : InFolder s d b := by
  obtain ⟨hrow, hdb⟩ := Database.mem_prefixBackups.mp hb
  exact hdb ▸ h.placed b hrow (hdb ▸ hd)

/-- In a blocked folder retention finishes deletes and does nothing else. -/
theorem BlockedBy.deletable (hnames : ∀ d ∈ names, validDatabaseSegment d = true) (hd : d ∈ names)
    (he : InFolder s d (e.row d)) :
    ∀ d' ∈ names, ∀ w, Guarded s names e (BlockedBy s installationID d key) w₀ w → ∀ b,
      MayDelete installationID (w.db.prefixBackups s.target d') b →
        Deletable (Guarded s names e (BlockedBy s installationID d key) w₀) s.target b := by
  intro d' hd' w ⟨_, hplaced, hblocked⟩ b ⟨hb, hwhy⟩
  have hfolder := hplaced.inFolder hd' hb
  obtain ⟨hrow, hdb⟩ := Database.mem_prefixBackups.mp hb
  obtain ⟨bκ, hbκ, hdbκ, hmκ⟩ := hblocked.there
  have hbκ' : bκ ∈ w.db.prefixBackups s.target d := Database.mem_prefixBackups.mpr ⟨hbκ, hdbκ⟩
  have hapart : b.manifestKey ≠ e.manifestKey ∧ b.manifestKey ≠ key := by
    by_cases hfolders : d' = d
    · subst hfolders
      rcases hwhy with hstate | ⟨hclear, -⟩
      · refine ⟨fun hm => hplaced.started b hrow hm hstate, fun hm => ?_⟩
        rcases hblocked.blocks b hrow hm with h | ⟨h, -⟩
        · rw [hstate] at h
          cases h
        · rw [hstate] at h
          cases h
      · rw [blocked_of_mem hbκ' (hblocked.blocks bκ hbκ hmκ)] at hclear
        cases hclear
    · refine ⟨?_, ?_⟩
      · exact InFolder.key_ne (hnames d' hd') (hnames d hd) (fun h => hfolders h.symm) hfolder he
      · rw [← hmκ]
        exact InFolder.key_ne (hnames d' hd') (hnames d hd) (fun h => hfolders h.symm) hfolder
          (hplaced.inFolder hd hbκ')
  apply Guarded.deletable (hnames d hd) he (hnames d' hd') hfolder hapart.1
  · intro w w' hview h
    apply h.touched hapart.2
    rw [hview]
    exact Touched.refl _ _ _
  · intro w w' ht h
    exact h.touched hapart.2 ht

/-- Where no complete row is newer, the scan keeps the row of `e`. -/
theorem NoneNewer.deletable (hnames : ∀ d ∈ names, validDatabaseSegment d = true) (hd : d ∈ names)
    (he : InFolder s d (e.row d)) :
    ∀ d' ∈ names, ∀ w, Guarded s names e (NoneNewer s d e) w₀ w → ∀ b,
      MayDelete installationID (w.db.prefixBackups s.target d') b →
        Deletable (Guarded s names e (NoneNewer s d e) w₀) s.target b := by
  intro d' hd' w ⟨_, hplaced, hnewest⟩ b ⟨hb, hwhy⟩
  have hfolder := hplaced.inFolder hd' hb
  obtain ⟨hrow, hdb⟩ := Database.mem_prefixBackups.mp hb
  have hne : b.manifestKey ≠ e.manifestKey := by
    by_cases hfolders : d' = d
    · subst hfolders
      rcases hwhy with hstate | ⟨-, policy, now, hexpired⟩
      · exact fun hm => hplaced.started b hrow hm hstate
      · intro hm
        -- the row has the time of `e` as well, so none of the folder is newer
        have hstamp : b.stamp = (e.row d').stamp := by
          obtain ⟨name, hname, hbm, -, hbt⟩ := hfolder
          obtain ⟨name', hname', hem, -, het⟩ := he
          have hkeys := hbm.symm.trans (hm.trans hem)
          obtain ⟨-, rfl, -⟩ := fileKey_inj (hnames d' hd') (hnames d' hd') hname hname'
            (by decide) (by decide) hkeys
          exact congrArg toLex (Prod.ext (hbt.trans het.symm) hm)
        refine newest_not_mem_selectExpired (fun c hc hstate => ?_) hexpired
        obtain ⟨r, hr, rfl⟩ := List.mem_map.mp hc
        obtain ⟨hmem, hcond⟩ := List.mem_filter.mp hr
        obtain ⟨htarget, hcdb⟩ := of_decide_eq_true hcond
        rw [hstamp]
        exact hnewest r.2 (htarget ▸ hmem) hcdb hstate
    · exact InFolder.key_ne (hnames d' hd') (hnames d hd) (fun h => hfolders h.symm) hfolder he
  apply Guarded.deletable (hnames d hd) he (hnames d' hd') hfolder hne
  · intro w w' hview h
    unfold NoneNewer
    rw [hview]
    exact h
  · intro w w' ht h
    exact h.touched ht

/-! ### From the view to the guard -/

variable {allowed : ∀ ⦃β : Type⦄, Call β → Fault → Prop} {γ : Type} {steady : Orders → γ}

/-- A complete directory that is not the installation's, and is not recorded as
    such, gets a row that blocks the folder. -/
theorem Made.blocks {log : List Event} {e' : Entry} {b : BucketBackup}
    (h : Made allowed w s d log e' b) (hstate : e'.state = .complete)
    (hnot : w.owns s installationID e' = false)
    (hrecorded : ∀ p ∈ w.db.prefixBackups s.target d, p.manifestKey = e'.manifestKey →
      p.installationID ≠ installationID) : b.Blocks installationID := by
  cases h with
  | unread h => exact absurd (Or.inl hstate) h
  | known _ previous hmem hkey _ => exact Or.inr ⟨hstate, hrecorded previous hmem hkey⟩
  | failed _ _ _ => exact Or.inl rfl
  | read _ _ r hr =>
    cases r with
    | error err => exact Or.inl rfl
    | ok m =>
      unfold World.owns at hnot
      rw [hr.stored] at hnot
      simp only at hnot
      simp only [classify]
      cases hcheck : checkManifest m e' with
      | error err => exact Or.inl rfl
      | ok u =>
        refine Or.inr ⟨hstate, fun howner => ?_⟩
        rw [hcheck] at hnot
        simp only [Except.isOk, Except.toBool, Bool.true_and, decide_eq_false_iff_not] at hnot
        exact hnot howner

theorem Reconciled.inPlace (h : Reconciled allowed steady s w w') (he : e ∈ w.entries s d)
    (hstate : e.state = .complete) (hd : d ∈ w.databases s) :
    InPlace s (w.databases s) e w' := by
  constructor
  · intro b hb hname
    obtain ⟨bs, hmade, hshows⟩ := h.done hname
    obtain ⟨b₀, hb₀, k, hrow⟩ := hshows.rows b hb rfl
    have hplace : InFolder s b.dbName { b₀ with deleteStartedAt := k } :=
      (made_inFolder hmade b₀ hb₀).2
    rw [← hrow] at hplace
    exact hplace
  · intro b hb hkey hb_state
    obtain ⟨bs, hmade, hshows⟩ := h.done hd
    obtain ⟨b₁, hb₁, hmade₁⟩ := Table.exists_right hmade he
    have hdb := hshows.keys b hb b₁ hb₁ (hkey.trans hmade₁.rowOf.manifestKey.symm)
    obtain ⟨b₀, hb₀, k, rfl⟩ := hshows.rows b hb hdb
    have harchive := (Done.entry_eq hmade he hb₀ hkey).rowOf.archiveOnly hb_state
    rw [hstate] at harchive
    cases harchive

/-- In a complete view either something blocks the folder, or no complete row is
    newer than that of the newest backup that is the installation's. -/
theorem Reconciled.guard (h : Reconciled allowed steady s w w')
    (he : w.NewestOwn s installationID d e) (hd : d ∈ w.databases s)
    (habove : ¬ w.RecordedAbove s installationID d e) :
    (∃ key, BlockedBy s installationID d key w') ∨ NoneNewer s d e w' := by
  obtain ⟨bs, hmade, hshows⟩ := h.done hd
  by_cases hnewer : ∃ e' ∈ w.entries s d, e'.state = .complete ∧
      (e.row d).stamp < (e'.row d).stamp
  · left
    obtain ⟨e', he', hstate, hlt⟩ := hnewer
    have hnot : w.owns s installationID e' = false := by
      by_contra howns
      have hmem : e' ∈ w.ownBackups s installationID d :=
        List.mem_filter.mpr ⟨he', decide_eq_true ⟨hstate, Bool.of_not_eq_false howns⟩⟩
      exact absurd (he.2 e' hmem) (not_le.mpr hlt)
    have hrecorded : ∀ p ∈ w.db.prefixBackups s.target d, p.manifestKey = e'.manifestKey →
        p.installationID ≠ installationID :=
      fun p hp hkey howner => habove ⟨e', he', hstate, hlt, p, hp, hkey, howner⟩
    obtain ⟨b₁, hb₁, hmade₁⟩ := Table.exists_right hmade he'
    refine ⟨e'.manifestKey, ?_, fun b hb hkey => ?_⟩
    · obtain ⟨k, hrow⟩ := hshows.there b₁ hb₁
      exact ⟨_, hrow, hmade₁.rowOf.dbName, hmade₁.rowOf.manifestKey⟩
    · have hdb := hshows.keys b hb b₁ hb₁ (hkey.trans hmade₁.rowOf.manifestKey.symm)
      obtain ⟨b₀, hb₀, k, rfl⟩ := hshows.rows b hb hdb
      exact (Done.entry_eq hmade he' hb₀ hkey).blocks hstate hnot hrecorded
  · right
    intro b hb hdb hstate
    obtain ⟨b₀, hb₀, k, rfl⟩ := hshows.rows b hb hdb
    obtain ⟨e', he', hmade'⟩ := Table.exists_left hmade hb₀
    have hrow := hmade'.rowOf
    have hstate' : e'.state = .complete := by
      rcases hrow.state with h | ⟨h, -⟩
      · rw [← h]
        exact hstate
      · rw [show b₀.state = .complete from hstate] at h
        cases h
    have hstamp : BucketBackup.stamp { b₀ with deleteStartedAt := k } = (e'.row d).stamp :=
      congrArg toLex (Prod.ext hrow.takenAt hrow.manifestKey)
    rw [hstamp]
    exact not_lt.mp (fun hlt => hnewer ⟨e', he', hstate', hlt⟩)

end

/-! ### The whole pass -/

theorem Untouched.congr {e : Entry} {w w₁ w₂ : World} (h : Untouched e w w₁)
    (hobjects : w₂.objects = w₁.objects) : Untouched e w w₂ := by
  rw [Untouched, World.content_congr hobjects, World.content_congr hobjects]
  exact h

/-- Retention under a guard. -/
theorem Guarded.safe {allowed : ∀ ⦃β : Type⦄, Call β → Fault → Prop} {γ : Type}
    {steady : Orders → γ} {s : Settings} {installationID : String} {names : List Text} {e : Entry}
    {H : World → Prop} {w w₀ : World} (h : Guarded s names e H w₀ w)
    (hview : ∀ w w' : World, w'.db.bucketBackups = w.db.bucketBackups → H w → H w')
    (hdelete : ∀ d ∈ names, ∀ w, Guarded s names e H w₀ w → ∀ b,
      MayDelete installationID (w.db.prefixBackups s.target d) b →
        Deletable (Guarded s names e H w₀) s.target b) :
    Safe (alone allowed steady (Untouched e w₀)) (afterReconcile s installationID names)
      (fun _ _ => True) w := by
  have hI : OnBucket (Guarded s names e H w₀) := Guarded.onBucket hview
  have hkeeps : Safe (alone allowed steady (Guarded s names e H w₀))
      (afterReconcile s installationID names) (fun _ _ => True) w :=
    hI.retentive.afterReconcile_keeps (fun w₁ _ _ hi => hI w₁ _ rfl rfl hi) hdelete
  apply Safe.narrow (fun _ h => h.1) _ h hkeeps
  intro w₁ w₂ hq
  exact hI.retentive.lasting w₁ w₂ (Quietly.unmoved hq)

theorem reconcile_untouched {allowed : ∀ ⦃β : Type⦄, Call β → Fault → Prop} {γ : Type}
    {steady : Orders → γ} {s : Settings} {installationID : String} {d : Text} {e : Entry}
    {w : World} (hd : validDatabaseSegment d = true) (he : w.NewestOwn s installationID d e)
    (habove : ¬ w.RecordedAbove s installationID d e) :
    Safe (alone allowed steady (Untouched e w)) (reconcile s installationID) (fun _ _ => True)
      w := by
  obtain ⟨hentry, hown⟩ := List.mem_filter.mp he.1
  have hstate := (of_decide_eq_true hown).1
  have hmem : d ∈ w.databases s :=
    World.mem_databases_of_holds hd hentry (World.holds_of_complete hentry hstate)
  have hnames : ∀ d ∈ w.databases s, validDatabaseSegment d = true :=
    fun d hd => World.valid_of_mem_databases hd
  have hplace := (rowOf_row d e).inFolder hentry
  have hlasting : Lasting steady (Untouched e w) :=
    fun _ _ hm hi => hi.congr (World.objects_of_core hm.core)
  refine (reconcile_alone hlasting ?_ ?_ (Q := fun _ => True) ?_).mono (fun _ _ _ => trivial)
  · intro w₁ d' now hi _
    exact hi.congr rfl
  · intro w₁ d' bs now hi _ _
    exact hi.congr rfl
  · intro w₁ hview hi
    have hplaced := hview.inPlace hentry hstate hmem
    rcases hview.guard he hmem habove with ⟨key, hblocked⟩ | hnewest
    · apply Guarded.safe (H := BlockedBy s installationID d key) ⟨hi, hplaced, hblocked⟩
      · exact fun _ _ hv h => ⟨hv ▸ h.there, hv ▸ h.blocks⟩
      · exact BlockedBy.deletable hnames hmem hplace
    · apply Guarded.safe (H := NoneNewer s d e) ⟨hi, hplaced, hnewest⟩
      · exact fun _ _ hv h => by rw [NoneNewer, hv]; exact h
      · exact NoneNewer.deletable hnames hmem hplace

/-- In every run of a pass, however its calls fail and wherever it stops, the
    newest complete backup of a folder whose stored manifest is valid and names
    this installation keeps both its objects, if no newer complete directory of
    the folder is recorded as this installation's when the pass begins. -/
theorem newest_own_backup_kept {s : Settings} {installationID : String} {d : Text} {e : Entry}
    {w w' : World} {r : Option (Except Err Unit)} (hd : validDatabaseSegment d = true)
    (he : w.NewestOwn s installationID d e) (habove : ¬ w.RecordedAbove s installationID d e)
    (hrun : Trace (answers anyFault) (Quietly (fun _ => ())) (reconcile s installationID)
      (w.begin s) r w') : w'.Holds e := by
  have hsafe : Safe (alone anyFault (fun _ => ()) (Untouched e (w.begin s)))
      (reconcile s installationID) (fun _ _ => True) (w.begin s) :=
    reconcile_untouched (w := w.begin s) hd he habove
  have hkeep : ∀ w₁ w₂, Quietly (fun _ => ()) w₁ w₂ → Untouched e (w.begin s) w₁ →
      Untouched e (w.begin s) w₂ :=
    fun _ _ hq hi => hi.congr (World.objects_of_core hq.core)
  have hstays : Untouched e (w.begin s) (w.begin s) := ⟨rfl, rfl⟩
  have hkept : Untouched e (w.begin s) w' :=
    (Safe.trace (S := alone anyFault (fun _ => ()) (Untouched e (w.begin s))) (fun _ _ h => h)
      hkeep hrun hstays hsafe).1
  obtain ⟨hentry, hown⟩ := List.mem_filter.mp he.1
  have hstart : (w.begin s).Holds e :=
    World.holds_of_complete (w := w.begin s) hentry (of_decide_eq_true hown).1
  rw [World.Holds, hkept.1, hkept.2]
  exact hstart

instance (w : World) (s : Settings) (installationID : String) (d : Text) (e : Entry) :
    Decidable (w.NewestOwn s installationID d e) :=
  inferInstanceAs (Decidable (_ ∧ _))

instance (w : World) (s : Settings) (installationID : String) (d : Text) (e : Entry) :
    Decidable (w.RecordedAbove s installationID d e) :=
  inferInstanceAs (Decidable (∃ e' ∈ w.entries s d, e'.state = .complete ∧ _ ∧
    ∃ b ∈ w.db.prefixBackups s.target d, _))

instance (w : World) (e : Entry) : Decidable (w.Holds e) := inferInstanceAs (Decidable (_ ∧ _))

theorem newest_own_backup_kept_two_backups :
    twoBackups.NewestOwn vault "home" "app".toList (appEntry "20240103T000000Z" 1704240000) ∧
    (playPass noFaults vault "home" twoBackups).Holds (appEntry "20240103T000000Z" 1704240000) := by
  have hnewest : twoBackups.NewestOwn vault "home" "app".toList
      (appEntry "20240103T000000Z" 1704240000) := by decide +kernel
  obtain ⟨r, hrun⟩ := playPass_trace anyFault noFaults (fun _ _ => trivial) vault "home"
    twoBackups (Quietly (fun _ => ()))
  exact ⟨hnewest, newest_own_backup_kept (by decide) hnewest (by decide +kernel) hrun⟩

/-- Both backups are recorded while the policy keeps two days. Then another
    installation writes over the newer manifest, and the policy keeps one day. -/
def newestReplaced : World :=
  let recorded := playPass noFaults vault "home"
    { twoBackups with db := { policy := ⟨24, 2, 0, -1⟩ } }
  let replaced := (appBackup "away" "20240103T000000Z" 1704240000).foldl
    (fun w o => w.put o.1 o.2) recorded
  { replaced with db := { replaced.db with policy := ⟨24, 1, 0, -1⟩ } }

/-- The next pass deletes the older backup, the only one left that is the
    installation's: the newer directory is still recorded as its own. -/
theorem newest_own_backup_lost :
    newestReplaced.NewestOwn vault "home" "app".toList (appEntry "20240101T000000Z" 1704067200) ∧
    ∃ r w', Trace (answers anyFault) (Quietly (fun _ => ())) (reconcile vault "home")
      (newestReplaced.begin vault) r w' ∧
      ¬ w'.Holds (appEntry "20240101T000000Z" 1704067200) := by
  refine ⟨by decide +kernel, ?_⟩
  obtain ⟨r, hrun⟩ := playPass_trace anyFault noFaults (fun _ _ => trivial) vault "home"
    newestReplaced (Quietly (fun _ => ()))
  exact ⟨some r, _, hrun, by decide +kernel⟩

end Pgfy
