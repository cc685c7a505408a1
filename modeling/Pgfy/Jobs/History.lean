import Pgfy.Jobs.Deletes

/-! # When the backup history forgets

    After a complete view, history rows without a complete row in the view are
    dropped. A row of the view is complete only if the manifest of its directory
    was read and passed, now or when its owner was recorded; a read that merely
    failed leaves a damaged row, and so does a file that does not belong in the
    directory. Where neither happens to a backup of the history, its row is
    dropped only for a reason.
-/

namespace Pgfy

open Calendar Storage Program

/-! ### What a history row stands for -/

/-- The archive next to a manifest. -/
def archiveOf (manifestKey : Text) : Text :=
  Text.trimSuffix ('/' :: manifestFile) manifestKey ++ '/' :: archiveFile

namespace World

/-- The bucket has the manifest and the archive of a backup. -/
def Stored (w : World) (manifestKey : Text) : Prop :=
  (w.content manifestKey).isSome = true ∧ (w.content (archiveOf manifestKey)).isSome = true

/-- A pass can tell what a stored backup is: a listing shows its directory as
    complete, and its owner is recorded or its manifest can be read. -/
def Tellable (allowed : ∀ ⦃β : Type⦄, Call β → Fault → Prop) (w : World) (s : Settings)
    (manifestKey : Text) : Prop :=
  ∃ d, validDatabaseSegment d = true ∧
    (∃ e ∈ w.entries s d, e.state = .complete ∧ e.manifestKey = manifestKey) ∧
    ((∃ b ∈ w.db.prefixBackups s.target d, b.manifestKey = manifestKey ∧ b.installationID ≠ "") ∨
      ¬ Faulty allowed (.bucket s (.readBytes manifestKey)))

end World

/-- The manifest was read in this pass and is not valid. -/
def FoundInvalid (s : Settings) (log : List Event) (key : Text) : Prop :=
  ∃ c, .read s key (.ok c) ∈ thisPass log ∧ (s.decodeManifest key c).isOk = false

/-- Every history row this pass has dropped had a reason. -/
def Explained (w : World) (s : Settings) (log : List Event) : Prop :=
  ∀ dropped, .forgot s.target dropped ∈ thisPass log → ∀ h ∈ dropped,
    ¬ w.Stored h.objectKey ∨ FoundInvalid s log h.objectKey

/-- An event that is not about the history, nor the beginning of a pass. -/
def Event.Other (e : Event) : Prop := ¬ e.IsBegan ∧ ∀ target dropped, e ≠ .forgot target dropped

section
variable {w : World} {s : Settings}

theorem FoundInvalid.grow {new log : List Event} {key : Text} (hnew : ∀ e ∈ new, ¬ e.IsBegan)
    (h : FoundInvalid s log key) : FoundInvalid s (new ++ log) key := by
  obtain ⟨c, hc, hinvalid⟩ := h
  refine ⟨c, ?_, hinvalid⟩
  rw [thisPass_append hnew]
  exact List.mem_append_right _ hc

theorem Explained.grow {new log : List Event} (hnew : ∀ e ∈ new, e.Other)
    (h : Explained w s log) : Explained w s (new ++ log) := by
  have hbegan : ∀ e ∈ new, ¬ e.IsBegan := fun e he => (hnew e he).1
  intro dropped hmem b hb
  rw [thisPass_append hbegan] at hmem
  rcases List.mem_append.mp hmem with hmem | hmem
  · exact absurd rfl ((hnew _ hmem).2 _ _)
  · exact (h dropped hmem b hb).imp_right (·.grow hbegan)

theorem Event.Plain.other {e : Event} (h : e.Plain) : e.Other := by
  refine ⟨h.not_began, ?_⟩
  rintro target dropped rfl
  exact h

theorem Event.IsDelete.other {e : Event} (h : e.IsDelete) : e.Other := by
  cases e <;> simp_all [Event.IsDelete, Event.Other, Event.IsBegan]

variable {γ : Type} {steady : Orders → γ}

theorem explained_retentive : Retentive steady (fun w' => Explained w s w'.log) := by
  constructor
  · intro w₁ w₂ hm hi
    obtain ⟨new, hlog, hnew⟩ := hm.grew
    show Explained w s w₂.log
    rw [hlog]
    exact hi.grow (fun e he => (hnew e he).other)
  · intro w₁ e he hi
    have hnew : ∀ e' ∈ [e], e'.Other := by simpa using he.other
    exact hi.grow hnew
  · intro w₁ backups hi
    exact hi

/-! ### A complete view and the history -/

variable {allowed : ∀ ⦃β : Type⦄, Call β → Fault → Prop} {w' : World}

/-- A read that makes a row of a complete directory damaged has found the stored
    manifest invalid. -/
theorem foundInvalid_of_read {d : Text} {log : List Event} {e : Entry} {r : Except Err Manifest}
    (hd : validDatabaseSegment d = true) (he : e ∈ w.entries s d) (hstate : e.state = .complete)
    (hr : ManifestRead w s e.manifestKey r log)
    (hdamaged : (classify (e.row d) e r).state ≠ .complete) :
    FoundInvalid s log e.manifestKey := by
  obtain ⟨entry, hentry, hcheck⟩ := World.entryFor_entry hd he (by rw [hstate]; simp)
  obtain ⟨c, hc⟩ := Option.isSome_iff_exists.mp (World.holds_of_complete he hstate).1
  have hstored : w.manifestAt s e.manifestKey = s.decodeManifest e.manifestKey c := by
    rw [World.manifestAt, hc]
  refine ⟨c, hr.noted c entry hc hentry, ?_⟩
  have hresult := hr.result
  rw [hstored] at hresult
  cases hdecode : s.decodeManifest e.manifestKey c with
  | error err => rfl
  | ok m =>
    -- a valid manifest would have been found valid
    rw [hdecode] at hresult
    cases r with
    | error err => cases hresult
    | ok m' =>
      obtain rfl : m' = m := Option.some.inj hresult
      obtain ⟨entry', hentry', hvalid⟩ := decodeManifest_ok hdecode
      obtain rfl : entry = entry' := Except.ok.inj (hentry.symm.trans hentry')
      rw [hcheck] at hvalid
      simp only [classify, hvalid] at hdamaged
      exact absurd hstate hdamaged

/-- A history row that the view has no complete row for is of a backup the
    bucket lacks, or whose manifest was found invalid. -/
theorem Reconciled.explains (h : Reconciled allowed steady s w w')
    (hn : (w.db.bucketBackups.map Database.rowKey).Nodup) {b : Backup}
    (htell : w.Stored b.objectKey → w.Tellable allowed s b.objectKey)
    (htarget : b.storageTarget = s.target) (hlost : w'.db.recoverable b = false) :
    ¬ w.Stored b.objectKey ∨ FoundInvalid s w'.log b.objectKey := by
  by_cases hstored : w.Stored b.objectKey
  · right
    obtain ⟨d, hd, ⟨e, he, hstate, hkey⟩, hread⟩ := htell hstored
    have hmem := World.mem_databases_of_holds hd he (World.holds_of_complete he hstate)
    obtain ⟨bs, hmade, hshows⟩ := h.done hmem
    obtain ⟨b₀, hb₀, hmade₀⟩ := Table.exists_right hmade he
    have hdamaged : b₀.state ≠ .complete := by
      intro hcomplete
      obtain ⟨k, hrow⟩ := hshows.there b₀ hb₀
      apply Bool.eq_false_iff.mp hlost
      refine List.any_eq_true.mpr ⟨_, hrow, decide_eq_true ⟨htarget.symm, ?_, hcomplete⟩⟩
      exact hmade₀.rowOf.manifestKey.trans hkey
    rw [← hkey]
    cases hmade₀ with
    | unread hno => exact absurd (Or.inl hstate) hno
    | known _ _ _ _ _ => exact absurd hstate hdamaged
    | read _ _ r hr => exact foundInvalid_of_read hd he hstate hr hdamaged
    | failed _ hno hf =>
      rcases hread with ⟨p, hp, hpkey, howner⟩ | hnofault
      · exact absurd (hno hn p hp (hpkey.trans hkey.symm)) howner
      · rw [← hkey] at hnofault
        exact absurd hf hnofault
  · exact Or.inl hstored

/-- A pass drops history rows only for a reason. -/
theorem reconcile_explained {installationID : String}
    (hn : (w.db.bucketBackups.map Database.rowKey).Nodup)
    (htell : ∀ b ∈ w.db.backups, b.storageTarget = s.target → w.Stored b.objectKey →
      w.Tellable allowed s b.objectKey) :
    Safe (alone allowed steady (fun w' => Explained w s w'.log)) (reconcile s installationID)
      (fun _ _ => True) w := by
  have hI : Retentive steady (fun w' => Explained w s w'.log) := explained_retentive
  have hrecorded : ∀ {log : List Event} (target d : Text) (bs : List BucketBackup),
      Explained w s log → Explained w s (.recorded target d bs :: log) := by
    intro log target d bs h
    have hnew : ∀ e ∈ [Event.recorded target d bs], e.Other := by
      simp [Event.Other, Event.IsBegan]
    exact h.grow hnew
  refine (reconcile_alone hI.lasting ?_ ?_ (Q := fun _ => True) ?_).mono (fun _ _ _ => trivial)
  · intro w₁ d now hi _
    exact hrecorded _ _ _ hi
  · intro w₁ d bs now hi _ _
    exact hrecorded _ _ _ hi
  · intro w₁ hview _
    apply hI.afterReconcile_keeps
    · intro w₂ hm _ hi dropped hmem b hb
      have hmem : .forgot s.target dropped ∈
          thisPass ([.forgot s.target (w₂.db.lostBackups s.target)] ++ w₂.log) := hmem
      have hbegan : ∀ e ∈ [Event.forgot s.target (w₂.db.lostBackups s.target)], ¬ e.IsBegan := by
        simp [Event.IsBegan]
      rw [thisPass_append hbegan] at hmem
      rcases List.mem_cons.mp hmem with heq | hmem
      · -- the rows dropped now
        obtain rfl := (Event.forgot.inj heq).2
        have hview₂ := hview.unmoved hm
        obtain ⟨hbackup, hcond⟩ := List.mem_filter.mp hb
        obtain ⟨htarget, hlost⟩ := of_decide_eq_true hcond
        rw [hview₂.history] at hbackup
        exact (hview₂.explains hn (htell b hbackup htarget) htarget
          (Bool.eq_false_iff.mpr hlost)).imp_right (·.grow hbegan)
      · exact (hi dropped hmem b hb).imp_right (·.grow hbegan)
    · intro d _ w₂ _ b _
      exact ⟨fun _ _ _ hi => hi, fun _ _ _ hi => hi⟩

end

/-- In every run of a pass, however its calls fail and wherever it stops, a
    history row is dropped only if the bucket lacks the backup's manifest or
    archive, or the stored manifest was read and found invalid. This needs every
    stored backup of the history to be one the pass can tell about: its directory
    has no files but the two, and its owner is recorded or its manifest can be
    read. -/
theorem history_dropped_for_a_reason {allowed : ∀ ⦃β : Type⦄, Call β → Fault → Prop}
    {s : Settings} {installationID : String} {w w' : World} {r : Option (Except Err Unit)}
    {dropped : List Backup} {b : Backup}
    (hn : (w.db.bucketBackups.map Database.rowKey).Nodup)
    (htell : ∀ b ∈ w.db.backups, b.storageTarget = s.target → w.Stored b.objectKey →
      w.Tellable allowed s b.objectKey)
    (hrun : Trace (answers allowed) (Quietly (fun _ => ())) (reconcile s installationID)
      (w.begin s) r w')
    (hforgot : .forgot s.target dropped ∈ thisPass w'.log) (hb : b ∈ dropped) :
    ¬ w.Stored b.objectKey ∨ FoundInvalid s w'.log b.objectKey := by
  have hsafe : Safe (alone allowed (fun _ => ()) (fun w' => Explained (w.begin s) s w'.log))
      (reconcile s installationID) (fun _ _ => True) (w.begin s) :=
    reconcile_explained (w := w.begin s) hn htell
  have hkeep : ∀ w₁ w₂ : World, Quietly (fun _ => ()) w₁ w₂ → Explained (w.begin s) s w₁.log →
      Explained (w.begin s) s w₂.log := by
    intro w₁ w₂ hq hi
    rw [hq.log]
    exact hi
  have hstart : Explained (w.begin s) s (w.begin s).log := by
    intro dropped hmem
    simp [World.begin, thisPass, Event.IsBegan] at hmem
  have hend : Explained (w.begin s) s w'.log :=
    (Safe.trace (S := alone allowed (fun _ => ()) (fun w' => Explained (w.begin s) s w'.log))
      (fun _ _ h => h) hkeep hrun hstart hsafe).1
  exact hend dropped hforgot b hb

/-- The history row of a backup of `app`. -/
def appHistory (name : String) (takenAt : ℤ) : Backup :=
  { id := "b-" ++ name, projectID := some "p1", jobID := "j-" ++ name
    objectKey := appManifest name, sizeBytes := 4096, createdAt := takenAt
    storageTarget := vault.target }

/-- Two backups in the bucket, and three in the history. -/
def oneLost : World :=
  { twoBackups with db := { twoBackups.db with
    backups := [appHistory "20231230T000000Z" 1703894400,
      appHistory "20240101T000000Z" 1704067200, appHistory "20240103T000000Z" 1704240000] } }

/-- Where no read fails, the pass can tell about a complete directory. -/
theorem tellable_of_faultless {w : World} {s : Settings} {d : Text} {e : Entry}
    (hd : validDatabaseSegment d = true) (he : e ∈ w.entries s d) (hstate : e.state = .complete) :
    w.Tellable faultless s e.manifestKey := by
  refine ⟨d, hd, ⟨e, he, hstate, rfl⟩, Or.inr ?_⟩
  intro ⟨fault, hfault, hnone⟩
  exact hfault hnone

instance (w : World) (key : Text) : Decidable (w.Stored key) := inferInstanceAs (Decidable (_ ∧ _))

theorem history_dropped_for_a_reason_one_lost :
    ¬ oneLost.Stored (appManifest "20231230T000000Z") ∨
      FoundInvalid vault (playPass noFaults vault "home" oneLost).log
        (appManifest "20231230T000000Z") := by
  obtain ⟨r, hrun⟩ := playPass_trace faultless noFaults (fun _ _ => rfl) vault "home" oneLost
    (Quietly (fun _ => ()))
  have hforgot : .forgot vault.target [appHistory "20231230T000000Z" 1703894400] ∈
      thisPass (playPass noFaults vault "home" oneLost).log := by decide +kernel
  have hcomplete : ∀ e ∈ [appEntry "20240101T000000Z" 1704067200,
      appEntry "20240103T000000Z" 1704240000], e ∈ oneLost.entries vault "app".toList := by
    decide +kernel
  have hkeys : (oneLost.db.bucketBackups.map Database.rowKey).Nodup := List.nodup_nil
  refine history_dropped_for_a_reason hkeys ?_ hrun hforgot List.mem_cons_self
  intro b hb _ hstored
  rcases List.mem_cons.mp hb with rfl | hb
  · exact absurd hstored (by decide +kernel)
  · rcases List.mem_cons.mp hb with rfl | hb
    · exact tellable_of_faultless (e := appEntry "20240101T000000Z" 1704067200) (by decide)
        (hcomplete _ (by simp)) rfl
    · rw [List.mem_singleton.mp hb]
      exact tellable_of_faultless (e := appEntry "20240103T000000Z" 1704240000) (by decide)
        (hcomplete _ (by simp)) rfl

/-- Reading one manifest fails. -/
def manifestUnread : ∀ ⦃β : Type⦄, Call β → Fault
  | _, .bucket _ (.readBytes key) =>
    if key = appManifest "20240103T000000Z" then .before else .none
  | _, _ => .none

/-- Whether the manifest under a key was read. -/
def Event.isReadOf (key : Text) : Event → Bool
  | .read _ k (.ok _) => k = key
  | _ => false

/-- A read that merely fails makes a history row disappear, although the bucket
    has both objects of the backup. -/
theorem history_dropped_after_failed_read :
    ∃ r w' dropped, Trace (answers anyFault) (Quietly (fun _ => ())) (reconcile vault "home")
      (oneLost.begin vault) r w' ∧ .forgot vault.target dropped ∈ thisPass w'.log ∧
      ∃ b ∈ dropped, oneLost.Stored b.objectKey ∧ ¬ FoundInvalid vault w'.log b.objectKey := by
  obtain ⟨r, hrun⟩ := playPass_trace anyFault manifestUnread (fun _ _ => trivial) vault "home"
    oneLost (Quietly (fun _ => ()))
  have hforgot : .forgot vault.target [appHistory "20231230T000000Z" 1703894400,
      appHistory "20240103T000000Z" 1704240000] ∈
      thisPass (playPass manifestUnread vault "home" oneLost).log := by decide +kernel
  refine ⟨some r, _, _, hrun, hforgot, appHistory "20240103T000000Z" 1704240000, by simp,
    by decide +kernel, ?_⟩
  intro ⟨c, hread, _⟩
  have hunread : (thisPass (playPass manifestUnread vault "home" oneLost).log).any
      (Event.isReadOf (appManifest "20240103T000000Z")) = false := by decide +kernel
  apply Bool.eq_false_iff.mp hunread
  exact List.any_eq_true.mpr ⟨_, hread, by simp [Event.isReadOf, appHistory]⟩

end Pgfy
