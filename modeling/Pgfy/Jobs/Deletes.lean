import Pgfy.Jobs.View

/-! # What retention does to the state, row by row

    The second half of a pass deletes rows of folders one after another. For an
    invariant that does not look at the history or at the order of deletes, it is
    enough to know which rows retention may pick, and that deleting such a row
    keeps it.
-/

namespace Pgfy

open Calendar Storage Program

variable {allowed : ∀ ⦃β : Type⦄, Call β → Fault → Prop} {γ : Type} {steady : Orders → γ}
variable {I : World → Prop} {w : World} {s : Settings}

/-- An invariant of the objects and the view. -/
def OnBucket (I : World → Prop) : Prop :=
  ∀ w w' : World, w'.objects = w.objects → w'.db.bucketBackups = w.db.bucketBackups → I w → I w'

/-- An event of a delete. -/
def Event.IsDelete : Event → Prop
  | .removed .. => True
  | .marked .. => True
  | .unmarked .. => True
  | _ => False

/-- An invariant that survives looks, that a delete is noted, and whatever
    becomes of the history. -/
structure Retentive {γ : Type} (steady : Orders → γ) (I : World → Prop) : Prop where
  lasting : Lasting steady I
  noted : ∀ (w : World) (e : Event), e.IsDelete → I w → I { w with log := e :: w.log }
  history : ∀ (w : World) (backups : List Backup), I w →
    I { w with db := { w.db with backups := backups } }

theorem OnBucket.retentive (hI : OnBucket I) : Retentive steady I where
  lasting w w' hm := hI w w' (World.objects_of_core hm.core) (World.view_of_core hm.core)
  noted w _ _ hi := hI w _ rfl rfl hi
  history w _ hi := hI w _ rfl rfl hi

/-- A view in which nothing but the row of one backup has changed: its marker,
    its state, or that it is gone. -/
structure Touched (target key : Text) (view view' : List (Text × BucketBackup)) : Prop where
  origin : ∀ r ∈ view', r ∈ view ∨ ∃ b k state, (target, b) ∈ view ∧ b.manifestKey = key ∧
    r = (target, { b with deleteStartedAt := k, state := state }) ∧
      (state = b.state ∨ state = .archiveOnly)
  rest : ∀ r ∈ view, Database.rowKey r ≠ (target, key) → r ∈ view'

theorem Touched.refl (target key : Text) (view : List (Text × BucketBackup)) :
    Touched target key view view := ⟨fun _ hr => Or.inl hr, fun _ hr _ => hr⟩

theorem touched_markBackupDeleting (target key : Text) (now : Instant) (db : Database) :
    Touched target key db.bucketBackups (db.markBackupDeleting target key now).bucketBackups := by
  constructor
  · intro r hr
    rcases Database.mem_modifyBucketBackup.mp hr with ⟨b, hb, hkey, rfl⟩ | ⟨hr, -⟩
    · exact Or.inr ⟨b, unix now, b.state, hb, hkey, rfl, Or.inl rfl⟩
    · exact Or.inl hr
  · intro r hr hne
    exact Database.mem_modifyBucketBackup.mpr (Or.inr ⟨hr, hne⟩)

theorem touched_markBackupArchiveOnly (target key : Text) (db : Database) :
    Touched target key db.bucketBackups (db.markBackupArchiveOnly target key).bucketBackups := by
  constructor
  · intro r hr
    rcases Database.mem_modifyBucketBackup.mp hr with ⟨b, hb, hkey, rfl⟩ | ⟨hr, -⟩
    · exact Or.inr ⟨b, b.deleteStartedAt, .archiveOnly, hb, hkey, rfl, Or.inr rfl⟩
    · exact Or.inl hr
  · intro r hr hne
    exact Database.mem_modifyBucketBackup.mpr (Or.inr ⟨hr, hne⟩)

theorem touched_forgetBucketBackup (target key : Text) (db : Database) :
    Touched target key db.bucketBackups (db.forgetBucketBackup target key).bucketBackups :=
  ⟨fun _ hr => Or.inl (Table.mem_delete.mp hr).1, fun _ hr hne => Table.mem_delete.mpr ⟨hr, hne⟩⟩

/-- Whatever is done to delete the backup of a row keeps the invariant. -/
structure Deletable (I : World → Prop) (target : Text) (b : BucketBackup) : Prop where
  removed : ∀ w key, key = b.manifestKey ∨ key = b.archiveKey → I w → I (w.without key)
  touched : ∀ (w : World) (view : List (Text × BucketBackup)),
    Touched target b.manifestKey w.db.bucketBackups view → I w →
      I { w with db := { w.db with bucketBackups := view } }

/-! ### Single statements -/

theorem Retentive.remove_keeps (hI : Retentive steady I) {b : BucketBackup}
    (hb : Deletable I s.target b) {key : Text} (hkey : key = b.manifestKey ∨ key = b.archiveKey) :
    Safe (alone allowed steady I) (remove s key) (fun _ _ => True) w := by
  have hgone : ∀ w₁ ok, Unmoved steady w w₁ → w₁.log = w.log → I w₁ →
      I { w₁.without key with log := .removed s key ok :: w₁.log } := by
    intro w₁ ok _ _ hi
    exact hI.noted (w₁.without key) _ trivial (hb.removed w₁ key hkey hi)
  have hstays : ∀ w₁, Unmoved steady w w₁ → w₁.log = w.log → I w₁ →
      I { w₁ with log := .removed s key false :: w₁.log } := by
    intro w₁ _ _ hi
    exact hI.noted w₁ _ trivial hi
  exact (alone_remove hI.lasting hgone hstays).mono (fun _ _ _ => trivial)

/-- A statement that keeps the invariant. -/
theorem Retentive.write_keeps (hI : Retentive steady I) {q : StoreCall Unit}
    {f : Database → Database} (hrun : ∀ db, q.run db = .ok ((), f db))
    (hevents : ∀ db, observeStore db q () = []) (hfail : observeFailed q = [])
    (hf : ∀ w, I w → I { w with db := f w.db }) :
    Safe (alone allowed steady I) (store q) (fun _ _ => True) w := by
  have hkeep : ∀ w₁, Unmoved steady w w₁ → w₁.log = w.log → I w₁ → I (w₁.after q f) := by
    intro w₁ _ _ hi
    unfold World.after
    rw [hevents w₁.db]
    exact hf w₁ hi
  exact (alone_write hI.lasting hrun hfail hkeep).mono (fun _ _ _ => trivial)

/-- The statements of a delete. -/
theorem Retentive.forget_keeps (hI : Retentive steady I) {b : BucketBackup}
    (hb : Deletable I s.target b) :
    Safe (alone allowed steady I) (store (.forgetBucketBackup s.target b.manifestKey))
      (fun _ _ => True) w :=
  hI.write_keeps (fun _ => rfl) (fun _ => rfl) rfl (fun w hi =>
    hb.touched w _ (touched_forgetBucketBackup _ _ w.db) hi)

theorem Retentive.mark_keeps (hI : Retentive steady I) {b : BucketBackup}
    (hb : Deletable I s.target b) (now : Instant) :
    Safe (alone allowed steady I) (store (.markBackupDeleting s.target b.manifestKey now))
      (fun _ _ => True) w := by
  apply (alone_mark hI.lasting _ _).mono (fun _ _ _ => trivial)
  · intro w₁ _ _ hi
    exact hI.noted { w₁ with db := w₁.db.markBackupDeleting s.target b.manifestKey now }
      (.marked s.target b.manifestKey) trivial
      (hb.touched w₁ _ (touched_markBackupDeleting _ _ now w₁.db) hi)
  · intro w₁ _ _ hi
    exact hI.noted w₁ _ trivial hi

theorem Retentive.archiveOnly_keeps (hI : Retentive steady I) {b : BucketBackup}
    (hb : Deletable I s.target b) :
    Safe (alone allowed steady I) (store (.markBackupArchiveOnly s.target b.manifestKey))
      (fun _ _ => True) w :=
  hI.write_keeps (fun _ => rfl) (fun _ => rfl) rfl (fun w hi =>
    hb.touched w _ (touched_markBackupArchiveOnly _ _ w.db) hi)

/-- Two steps of which nothing is known but that they keep the invariant. -/
theorem keeps_bind {α β : Type} {x : Go α} {f : α → Go β}
    (hx : Safe (alone allowed steady I) x (fun _ _ => True) w)
    (hf : ∀ a w', Safe (alone allowed steady I) (f a) (fun _ _ => True) w') :
    Safe (alone allowed steady I) (x.bind f) (fun _ _ => True) w := by
  apply Safe.bindAction
  apply hx.mono
  intro r w' _
  cases r with
  | ok a => exact hf a w'
  | error e => exact Safe.ret (fun _ _ _ => trivial)

theorem keeps_forEach {β : Type} {f : β → Go Unit} {bs : List β}
    (hf : ∀ b ∈ bs, ∀ w', Safe (alone allowed steady I) (f b) (fun _ _ => True) w') :
    Safe (alone allowed steady I) (Action.forEach f bs) (fun _ _ => True) w := by
  induction bs generalizing w with
  | nil => exact Safe.ret (fun _ _ _ => trivial)
  | cons b rest ih =>
    apply keeps_bind (hf b List.mem_cons_self w)
    intro _ w'
    exact ih (fun b' hb' => hf b' (List.mem_cons_of_mem b hb'))

/-! ### Deletes -/

theorem Retentive.finishDelete_keeps (hI : Retentive steady I) {b : BucketBackup}
    (hb : Deletable I s.target b) :
    Safe (alone allowed steady I) (finishDelete s s.target b) (fun _ _ => True) w := by
  apply keeps_bind (hI.remove_keeps hb (Or.inr rfl))
  intro _ w₁
  apply keeps_bind (hI.forget_keeps hb)
  intro _ w₂
  exact hI.write_keeps (fun _ => rfl) (fun _ => rfl) rfl (fun w hi => hI.history w _ hi)

theorem Retentive.deleteBackup_keeps (hI : Retentive steady I) {installationID : String}
    {b : BucketBackup} (hb : Deletable I s.target b) :
    Safe (alone allowed steady I) (deleteBackup s installationID s.target b) (fun _ _ => True)
      w := by
  apply keeps_bind ((readManifest_alone hI.lasting).mono (fun _ _ _ => trivial))
  intro m w₁
  by_cases howned : ownedManifest installationID b m
  · simp only [howned, Bool.not_true, Bool.false_eq_true, if_false]
    apply keeps_bind ((alone_clock hI.lasting).mono (fun _ _ _ => trivial))
    intro now w₂
    apply keeps_bind (hI.mark_keeps hb now)
    intro _ w₃
    apply keeps_bind (hI.remove_keeps hb (Or.inl rfl))
    intro _ w₄
    apply keeps_bind (hI.archiveOnly_keeps hb)
    intro _ w₅
    exact hI.finishDelete_keeps hb
  · simp only [howned, Bool.not_false, if_true]
    apply keeps_bind (hI.forget_keeps hb)
    intro _ w₂
    exact Safe.ret (fun _ _ _ => trivial)

theorem Retentive.cleanAbandonedUploads_keeps (hI : Retentive steady I)
    {backups : List BucketBackup}
    (hb : ∀ b ∈ backups, b.state = .archiveOnly → Deletable I s.target b) :
    Safe (alone allowed steady I) (cleanAbandonedUploads s s.target backups) (fun _ _ => True)
      w := by
  apply keeps_bind ((alone_clock hI.lasting).mono (fun _ _ _ => trivial))
  intro now w₁
  apply keeps_forEach
  intro b hmem w₂
  obtain ⟨hmem, hpick⟩ := List.mem_filter.mp hmem
  have hstate : b.state = .archiveOnly := by
    by_contra hne
    exact of_decide_eq_true hpick (Or.inl hne)
  have hdelete := hb b hmem hstate
  apply keeps_bind ((alone_read hI.lasting (fun _ => rfl) ?_ rfl).mono (fun _ _ _ => trivial))
  · intro ours w₃
    split
    · apply keeps_bind (hI.remove_keeps hdelete (Or.inr rfl))
      intro _ w₄
      exact hI.forget_keeps hdelete
    · exact Safe.ret (fun _ _ _ => trivial)
  · intro db a e he
    simp only [observeStore] at he
    split at he
    · rw [List.mem_singleton.mp he]
      trivial
    · cases he

/-- Retention may delete a row of a folder: it is archive-only, or the folder
    holds nothing foreign and the row expires. -/
def MayDelete (installationID : String) (rows : List BucketBackup) (b : BucketBackup) : Prop :=
  b ∈ rows ∧ (b.state = .archiveOnly ∨ (blockedByForeignContent rows installationID = false ∧
    ∃ policy now, b ∈ selectExpired rows policy now))

theorem Retentive.retainDatabase_keeps (hI : Retentive steady I) {installationID : String}
    {d : Text} {policy : BackupPolicy}
    (hb : ∀ w, I w → ∀ b, MayDelete installationID (w.db.prefixBackups s.target d) b →
      Deletable I s.target b) :
    Safe (alone allowed steady I) (retainDatabase s installationID s.target d policy)
      (fun _ _ => True) w := by
  apply Safe.of_later
  intro w₀ _ hi₀
  apply Safe.bindAction
  apply (alone_read hI.lasting (fun _ => rfl) (by simp [observeStore, Event.Plain]) rfl).mono
  rintro r w₁ ⟨_, hrows⟩
  rcases hrows with ⟨w₂, hm₂, rfl⟩ | ⟨⟨e, rfl⟩, -⟩
  · have hdelete := hb w₂ (hI.lasting _ _ hm₂ hi₀)
    apply keeps_bind
    · apply keeps_forEach
      intro b hmem w₃
      obtain ⟨hmem, hpick⟩ := List.mem_filter.mp hmem
      rw [Bool.and_eq_true] at hpick
      exact hI.finishDelete_keeps
        (hdelete b ⟨hmem, Or.inl (of_decide_eq_true hpick.1)⟩)
    · intro _ w₃
      split
      · exact Safe.ret (fun _ _ _ => trivial)
      · next hclear =>
        have hclear := Bool.eq_false_iff.mpr hclear
        apply keeps_bind ((alone_clock hI.lasting).mono (fun _ _ _ => trivial))
        intro now w₄
        apply keeps_bind
        · apply keeps_forEach
          intro b hmem w₅
          exact hI.deleteBackup_keeps (hdelete b
            ⟨(complete_of_mem_selectExpired hmem).1, Or.inr ⟨hclear, policy, now, hmem⟩⟩)
        · intro _ w₅
          apply hI.cleanAbandonedUploads_keeps
          intro b hmem hstate
          exact hdelete b ⟨hmem, Or.inl hstate⟩
  · exact Safe.ret (fun _ _ _ => trivial)

/-! ### The whole of retention -/

/-- A program that goes on with nothing known but the invariant. -/
theorem keeps_then {α β : Type} {x : Run α} {f : α → Run β}
    (hx : Safe (alone allowed steady I) x (fun _ _ => True) w)
    (hf : ∀ a w', Safe (alone allowed steady I) (f a) (fun _ _ => True) w') :
    Safe (alone allowed steady I) (x.bind f) (fun _ _ => True) w := by
  apply Safe.bind
  exact hx.mono (fun a w' _ => hf a w')

theorem Retentive.retainEach_keeps (hI : Retentive steady I) {installationID : String}
    {policy : BackupPolicy} {databases : List Text}
    (hb : ∀ d ∈ databases, ∀ w, I w → ∀ b,
      MayDelete installationID (w.db.prefixBackups s.target d) b → Deletable I s.target b) :
    Safe (alone allowed steady I) (retainEach s installationID policy databases)
      (fun _ _ => True) w := by
  induction databases generalizing w with
  | nil => exact Safe.ret (fun _ _ _ => trivial)
  | cons d rest ih =>
    apply keeps_then (hI.retainDatabase_keeps (hb d List.mem_cons_self))
    intro _ w'
    exact ih (fun d' hd' => hb d' (List.mem_cons_of_mem d hd'))

/-- A look of which nothing is needed. -/
theorem Retentive.look_keeps (hI : Retentive steady I) {α : Type} {c : Call α} (hc : ReadOnly c) :
    Safe (alone allowed steady I) (Prog.ask c) (fun _ _ => True) w :=
  alone_look hI.lasting hc (fun _ _ _ _ _ _ _ => trivial)

theorem Retentive.retain_keeps (hI : Retentive steady I) {installationID : String}
    {databases : List Text}
    (hb : ∀ d ∈ databases, ∀ w, I w → ∀ b,
      MayDelete installationID (w.db.prefixBackups s.target d) b → Deletable I s.target b) :
    Safe (alone allowed steady I) (retain s installationID databases) (fun _ _ => True) w := by
  apply keeps_then (hI.look_keeps (readOnly_bucketVersioning s))
  intro v w₁
  cases v with
  | error e => exact Safe.ret (fun _ _ _ => trivial)
  | ok v =>
    dsimp only
    split
    · apply keeps_then
      · apply keeps_then ((alone_read hI.lasting (fun _ => rfl) (by simp [observeStore]) rfl).mono
          (fun _ _ _ => trivial))
        intro p w₂
        cases p <;> exact Safe.ret (fun _ _ _ => trivial)
      · intro policy w₂
        exact hI.retainEach_keeps hb
    · exact Safe.ret (fun _ _ _ => trivial)

theorem Retentive.afterReconcile_keeps (hI : Retentive steady I) {installationID : String}
    {databases : List Text}
    (hforget : ∀ w₁, Unmoved steady w w₁ → w₁.log = w.log → I w₁ →
      I (w₁.after (.forgetLostLocalBackups s.target) (·.forgetLostLocalBackups s.target)))
    (hb : ∀ d ∈ databases, ∀ w, I w → ∀ b,
      MayDelete installationID (w.db.prefixBackups s.target d) b → Deletable I s.target b) :
    Safe (alone allowed steady I) (afterReconcile s installationID databases) (fun _ _ => True)
      w := by
  apply keeps_then ((alone_write hI.lasting (fun _ => rfl) rfl hforget).mono (fun _ _ _ => trivial))
  intro _ w₁
  apply keeps_then ((alone_read hI.lasting (fun _ => rfl) (by simp [observeStore]) rfl).mono
    (fun _ _ _ => trivial))
  intro on w₂
  split
  · apply keeps_then (hI.retain_keeps hb)
    intro _ w₃
    apply keeps_then (hI.look_keeps readOnly_now)
    intro now w₄
    apply keeps_then ((alone_aside hI.lasting (aside_pruneJobs _)).mono (fun _ _ _ => trivial))
    intro _ w₅
    exact Safe.ret (fun _ _ _ => trivial)
  · exact Safe.ret (fun _ _ _ => trivial)

end Pgfy
