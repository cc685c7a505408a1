import Pgfy.Jobs.Provenance

/-! # What retention removes

    Over every run of reconciliation passes against an adversarial bucket, each
    key passed to `Remove` is justified by what the log shows before it. Every
    function of a pass is shown to keep the invariant at each of its calls.
-/

namespace Pgfy

open Calendar Storage Program

variable {installationID : String} {w w' : World} {s : Settings} {b : BucketBackup} {target : Text}
  {now : Instant}

/-! ### The rules of the proof -/

/-- A pass among others that leave the reconciled view and the log alone. -/
def against (installationID : String) : Setting World Call where
  answer := adversary
  inv := Sound installationID
  rely := Outside
  guar := fun _ _ => True
  rely_refl := fun _ => ⟨rfl, rfl⟩
  rely_trans := fun h h' => ⟨h'.1.trans h.1, h'.2.trans h.2⟩

/-- What is known of the state after a call, others having been at work before
    and after it. -/
def Answered {α : Type} (c : Call α) (w : World) (r : α) (w' : World) : Prop :=
  ∃ db db', db.bucketBackups = w.db.bucketBackups ∧ w'.db.bucketBackups = db'.bucketBackups ∧
    StoreEffect c r db db' ∧ w'.log = observe db c r ++ w.log

/-- The rule for a call: its own step keeps the invariant. -/
theorem safe_ask {α : Type} {c : Call α} {Q : α → World → Prop}
    (hstep : ∀ w₁ r w₂, Outside w w₁ → Sound installationID w₁ → adversary w₁ c r w₂ →
      Sound installationID w₂)
    (hQ : ∀ r w', Answered c w r w' → Sound installationID w' → Q r w') :
    Safe (against installationID) (Prog.ask c) Q w := by
  apply Safe.ask
  intro w₁ ho₁ hi₁ r w₂ ha
  refine ⟨hstep w₁ r w₂ ho₁ hi₁ ha, trivial, ?_⟩
  intro w₃ ho₃ hi₃
  apply hQ r w₃ _ hi₃
  exact ⟨w₁.db, w₂.db, ho₁.2, ho₃.2, ha.2, by rw [ho₃.1, ha.1, ho₁.1]⟩

/-- A call that adds no row and leaves nothing but quiet events. -/
structure Idle {α : Type} (c : Call α) : Prop where
  rows : ∀ r db db', StoreEffect c r db db' → ∀ x ∈ db'.bucketBackups, x ∈ db.bucketBackups
  quiet : ∀ db r, ∀ e ∈ observe db c r, e.Quiet

theorem safe_idle {α : Type} {c : Call α} {Q : α → World → Prop} (hc : Idle c)
    (hQ : ∀ r w', Answered c w r w' → Sound installationID w' → Q r w') :
    Safe (against installationID) (Prog.ask c) Q w := by
  apply safe_ask _ hQ
  intro w₁ r w₂ _ hi ha
  exact hi.extend ha.1 (hc.quiet w₁.db r) (hc.rows r w₁.db w₂.db ha.2)

theorem idle_store {β : Type} {q : StoreCall β} (hq : ¬ q.WritesView) : Idle (.store q) := by
  refine ⟨?_, ?_⟩
  · intro r db db' heff x hx
    rcases heff with ⟨a, hrun, -⟩ | ⟨-, rfl⟩
    · exact StoreCall.run_bucketBackups hq hrun ▸ hx
    · exact hx
  · intro db r e he
    cases r with
    | error =>
      obtain ⟨target, key, rfl⟩ := mem_observeFailed he
      trivial
    | ok a =>
      cases q <;> simp [observe, observeStore] at he
      all_goals first
        | exact absurd trivial hq
        | (rw [he]; trivial)
        | (rw [he.2]; trivial)

theorem idle_forgetBucketBackup (target key : Text) :
    Idle (.store (.forgetBucketBackup target key)) := by
  refine ⟨?_, ?_⟩
  · intro r db db' heff x hx
    rcases heff with ⟨a, hrun, -⟩ | ⟨-, rfl⟩
    · obtain ⟨-, rfl⟩ := Prod.mk.inj (Except.ok.inj hrun)
      exact (Table.mem_delete.mp hx).1
    · exact hx
  · intro db r e he
    cases r <;> cases he

theorem idle_now : Idle .now :=
  ⟨fun _ _ _ heff _ hx => heff ▸ hx, by simp [observe, Event.Quiet]⟩

/-- Every request to the bucket but a removal. -/
theorem idle_bucket {β : Type} (s : Settings) {q : BucketCall β}
    (hq : ∀ r, ∀ e ∈ observeBucket s q r, e.Quiet) : Idle (.bucket s q) :=
  ⟨fun _ _ _ heff _ hx => heff ▸ hx, fun _ r => hq r⟩

/-! ### Deleting -/

theorem Grew.outside {P : Event → Prop} {w₁ : World} (h : Grew P w w₁) (ho : Outside w₁ w') :
    Grew P w w' := by
  obtain ⟨new, hlog, hnew⟩ := h
  exact ⟨new, ho.1.trans hlog, hnew⟩

theorem Answered.grew {P : Event → Prop} {α : Type} {c : Call α} {r : α} (h : Answered c w r w')
    (hc : ∀ db, ∀ e ∈ observe db c r, P e) : Grew P w w' := by
  obtain ⟨db, -, -, -, -, hlog⟩ := h
  exact ⟨observe db c r, hlog, hc db⟩

/-- The log has grown by events of deletion only. -/
abbrev Onward := Grew Event.Retaining

theorem Cleared.onward (h : Cleared s w.log) (ho : Onward w w') : Cleared s w'.log := by
  obtain ⟨new, hlog, hnew⟩ := ho
  exact hlog ▸ h.append hnew

theorem NoManifest.onward (h : NoManifest installationID s b w.log) (ho : Onward w w') :
    NoManifest installationID s b w'.log := by
  obtain ⟨new, hlog, hnew⟩ := ho
  exact hlog ▸ h.append (fun e he => (hnew e he).not_began)

/-- The rule for sequencing inside the deleting part: an error ends it. -/
theorem safe_andThen {α β : Type} {x : Go α} {f : α → Go β}
    (h : Safe (against installationID) x (fun r w₁ => Onward w w₁ ∧
      ∀ a, r = .ok a → Safe (against installationID) (f a) (fun _ w' => Onward w w') w₁) w) :
    Safe (against installationID) (x.bind f) (fun _ w' => Onward w w') w := by
  apply Safe.bindAction
  apply Safe.mono _ h
  intro r w₁ ⟨ho, hf⟩
  cases r with
  | ok a => exact hf a rfl
  | error e => exact Safe.ret (fun w' hw' _ => ho.outside hw')

/-- Sequencing where nothing but the growth of the log has to be known. -/
theorem safe_seq {α β : Type} {x : Go α} {f : α → Go β}
    (hx : Safe (against installationID) x (fun _ w₁ => Onward w w₁) w)
    (hf : ∀ a w₁, Onward w w₁ →
      Safe (against installationID) (f a) (fun _ w' => Onward w₁ w') w₁) :
    Safe (against installationID) (x.bind f) (fun _ w' => Onward w w') w := by
  apply safe_andThen
  apply hx.mono
  intro r w₁ ho
  exact ⟨ho, fun a _ => (hf a w₁ ho).mono (fun _ _ h' => ho.trans h')⟩

theorem safe_clock : Safe (against installationID) (Action.lift clock : Go Instant)
    (fun r w' => Onward w w' ∧ ∀ now, r = .ok now → w'.log = .time now :: w.log) w := by
  apply Safe.lift
  apply safe_idle idle_now
  intro now w₁ ha _
  have ho : Onward w w₁ := ha.grew (by simp [observe, Event.Retaining])
  obtain ⟨db, db', -, -, -, hlog⟩ := ha
  apply Safe.ret
  intro w' ho' _
  refine ⟨ho.outside ho', fun now' hnow => ?_⟩
  cases hnow
  exact ho'.1.trans hlog

theorem safe_from {α : Type} {p : Run α} {w₁ : World} (ho : Onward w w₁)
    (h : Safe (against installationID) p (fun _ w' => Onward w₁ w') w₁) :
    Safe (against installationID) p (fun _ w' => Onward w w') w₁ :=
  h.mono (fun _ _ h' => ho.trans h')

/-- The rule for a removal that is justified. -/
theorem safe_remove {key : Text} {Q : Except Err Unit → World → Prop} (hc : Cleared s w.log)
    (hj : Justified installationID s w.log key)
    (hQ : ∀ r w', w'.log = .removed s key r.isOk :: w.log → Q r w') :
    Safe (against installationID) (remove s key) Q w := by
  apply safe_ask
  · intro w₁ r w₂ ho hi ha
    have hlog : w₂.log = .removed s key r.isOk :: w₁.log := ha.1
    exact hi.remove hlog (by rw [show w₂.db = w₁.db from ha.2]) (ho.1 ▸ hc) (ho.1 ▸ hj)
  · intro r w' ha _
    obtain ⟨db, db', -, -, -, hlog⟩ := ha
    exact hQ r w' hlog

/-- The archive of a row may go, now and later in this pass. -/
def Removable (installationID : String) (s : Settings) (b : BucketBackup) (log : List Event) :
    Prop :=
  (∃ b', b'.archiveKey = b.archiveKey ∧ ManifestGone installationID s b' log) ∨
    (ShownArchiveOnly b log ∧ MarkedSince installationID s.target b.manifestKey log)

theorem Removable.justified {log : List Event} (h : Removable installationID s b log) :
    Justified installationID s log b.archiveKey := by
  rcases h with ⟨b', hkey, hgone⟩ | ⟨hshown, hmarked⟩
  · rw [← hkey]
    exact .archive b' hgone
  · exact .halfDeleted b hshown hmarked

theorem Removable.append {new log : List Event} (hnew : ∀ e ∈ new, e.Retaining)
    (h : Removable installationID s b log) : Removable installationID s b (new ++ log) := by
  have hbegan : ∀ e ∈ new, ¬ e.IsBegan := fun e he => (hnew e he).not_began
  rcases h with ⟨b', hkey, hgone⟩ | ⟨hshown, hmarked⟩
  · exact Or.inl ⟨b', hkey, hgone.append hbegan⟩
  · refine Or.inr ⟨hshown.append hbegan, hmarked.append ?_⟩
    intro dbName bs he
    exact (hnew _ he).elim

theorem finishDelete_safe (hc : Cleared s w.log) (hj : Removable installationID s b w.log) :
    Safe (against installationID) (finishDelete s target b) (fun _ w' => Onward w w') w := by
  apply safe_andThen
  apply safe_remove hc hj.justified
  intro r w₁ hlog
  have ho₁ : Onward w w₁ := ⟨[_], hlog, by simp [Event.Retaining]⟩
  refine ⟨ho₁, fun _ _ => safe_from ho₁ ?_⟩
  apply safe_andThen
  apply safe_idle (idle_forgetBucketBackup _ _)
  intro r w₂ ha _
  have ho₂ : Onward w₁ w₂ := ha.grew (by cases r <;> simp [observe, observeStore, observeFailed])
  refine ⟨ho₂, fun _ _ => safe_from ho₂ ?_⟩
  apply safe_idle (idle_store id)
  intro r w₃ ha _
  exact ha.grew (by cases r <;> simp [observe, observeStore, observeFailed])

/-- A manifest that was read is what the last event decodes to. -/
theorem readManifest_safe {key : Text} {Q : Except Err Manifest → World → Prop}
    (hQ : ∀ r w', Onward w w' → (∀ m, r = .ok m → ∃ c, w'.log = .read s key (.ok c) :: w.log ∧
      s.decodeManifest key c = .ok m) → Q r w') :
    Safe (against installationID) (readManifest s key) Q w := by
  unfold readManifest
  apply Safe.bindAction
  apply Safe.ret
  intro w₁ ho₁ _
  cases s.entryFor key with
  | error e =>
    apply Safe.ret
    intro w' ho' _
    exact hQ _ _ (((Grew.refl w).outside ho₁).outside ho') (fun m hm => by cases hm)
  | ok entry =>
    apply Safe.bindAction
    apply safe_idle (idle_bucket s (fun r e he => by simp_all [observeBucket, Event.Quiet]))
    intro r w₂ ha _
    have ho₂ : Onward w w₂ := ((Grew.refl w).outside ho₁).trans
      (ha.grew (by simp [observe, observeBucket, Event.Retaining]))
    obtain ⟨db, db', -, -, -, hlog⟩ := ha
    cases r with
    | error e =>
      apply Safe.ret
      intro w' ho' _
      exact hQ _ _ (ho₂.outside ho') (fun m hm => by cases hm)
    | ok c =>
      apply Safe.ret
      intro w' ho' _
      refine hQ _ _ (ho₂.outside ho') (fun m hm => ⟨c, ?_, hm⟩)
      rw [ho'.1, hlog, ho₁.1]
      rfl

/-- The rule for marking a row after a confirmed read. -/
theorem safe_mark {Q : Except Err Unit → World → Prop} (hb : Confirmed installationID b w.log)
    (hQ : ∀ r w', Onward w w' → (r = .ok () → w'.log = .marked target b.manifestKey :: w.log) →
      Q r w') :
    Safe (against installationID) (store (.markBackupDeleting target b.manifestKey now)) Q w := by
  apply safe_ask
  · intro w₁ r w₂ ho hi ha
    obtain ⟨hlog, ⟨a, hrun, rfl⟩ | ⟨⟨e, rfl⟩, hdb⟩⟩ := ha
    · exact hi.mark hlog (StoreCall.write_eq_ok.mp hrun) (ho.1 ▸ hb)
    · exact hi.extend hlog (by simp [observe, observeFailed, Event.Quiet]) (fun r hr => hdb ▸ hr)
  · intro r w' ha _
    have ho : Onward w w' := ha.grew (by
      cases r <;> simp [observe, observeStore, observeFailed, Event.Retaining])
    obtain ⟨db, db', -, -, -, hlog⟩ := ha
    exact hQ r w' ho (fun hr => by rw [hlog, hr]; rfl)

/-- The rule for making a row archive-only after its manifest was removed. -/
theorem safe_archiveOnly {Q : Except Err Unit → World → Prop} (hstore : passStore w.log = some s)
    (hplaced : b.Placed) (hgone : ManifestGone installationID s b w.log)
    (hQ : ∀ r w', Onward w w' → Q r w') :
    Safe (against installationID) (store (.markBackupArchiveOnly s.target b.manifestKey)) Q w := by
  apply safe_ask
  · intro w₁ r w₂ ho hi ha
    obtain ⟨hlog, ⟨a, hrun, rfl⟩ | ⟨⟨e, rfl⟩, hdb⟩⟩ := ha
    · exact hi.archiveOnly hlog (StoreCall.write_eq_ok.mp hrun) (ho.1 ▸ hstore) hplaced
        (ho.1 ▸ hgone)
    · exact hi.extend hlog (by simp [observe, observeFailed, Event.Quiet]) (fun r hr => hdb ▸ hr)
  · intro r w' ha _
    exact hQ r w' (ha.grew (by cases r <;> simp [observe, observeStore, observeFailed]))

/-- Once the manifest of a marked row is removed, the rest of the deletion is
    justified by that. -/
theorem safe_removeMarked (hc : Cleared s w.log) (hstart : Starting installationID s.target b w.log)
    (hplaced : b.Placed) :
    Safe (against installationID) (do
      remove s b.manifestKey
      store (.markBackupArchiveOnly s.target b.manifestKey)
      finishDelete s s.target b : Go Unit) (fun _ w' => Onward w w') w := by
  apply safe_andThen
  apply safe_remove hc (.manifest b hstart)
  intro r w₁ hlog
  have ho₁ : Onward w w₁ := ⟨[_], hlog, by simp [Event.Retaining]⟩
  refine ⟨ho₁, fun u hu => safe_from ho₁ ?_⟩
  rw [hu] at hlog
  have hgone : ManifestGone installationID s b w₁.log := ⟨[], w.log, hlog, by simp, hstart⟩
  have hc₁ : Cleared s w₁.log := hc.onward ho₁
  apply safe_andThen
  apply safe_archiveOnly hc₁.store hplaced hgone
  intro r w₂ ho₂
  refine ⟨ho₂, fun _ _ => safe_from ho₂ ?_⟩
  apply finishDelete_safe (hc₁.onward ho₂)
  obtain ⟨new, hnew, hret⟩ := ho₂
  exact hnew ▸ Removable.append hret (Or.inl ⟨b, rfl, hgone⟩)

theorem deleteBackup_safe {dbName : Text} {bs : List BucketBackup} (hc : Cleared s w.log)
    (hrows : .rows s.target dbName bs ∈ thisPass w.log) (hb : b ∈ bs) (hplaced : b.Placed) :
    Safe (against installationID) (deleteBackup s installationID s.target b)
      (fun _ w' => Onward w w') w := by
  apply safe_andThen
  apply readManifest_safe
  intro r w₁ ho₁ hread
  refine ⟨ho₁, fun m hm => safe_from ho₁ ?_⟩
  obtain ⟨c, hlog₁, hdecode⟩ := hread m hm
  by_cases howned : ownedManifest installationID b m = true
  · rw [howned]
    obtain ⟨hcheck, hinst, hproject⟩ := ownedManifest_eq_true.mp howned
    -- the clock is read, then the row is marked
    apply safe_andThen
    apply safe_clock.mono
    intro r w₂ ⟨ho₂, htime⟩
    refine ⟨ho₂, fun now hnow => safe_from ho₂ ?_⟩
    have hlog₂ : w₂.log = .time now :: .read s b.manifestKey (.ok c) :: w.log := by
      rw [htime now hnow, hlog₁]
    have hconf : Confirmed installationID b w₂.log :=
      ⟨now, s, c, m, w.log, hlog₂, hdecode, hcheck, hinst, hproject⟩
    apply safe_andThen
    apply safe_mark hconf
    intro r w₃ ho₃ hmark
    refine ⟨ho₃, fun u hu => safe_from ho₃ ?_⟩
    apply safe_removeMarked (hc.onward ((ho₁.trans ho₂).trans ho₃)) _ hplaced
    exact ⟨w₂.log, hmark hu, hconf, dbName, bs,
      (ho₁.trans ho₂).thisPass Event.Retaining.not_began hrows, hb⟩
  · -- the manifest is no longer ours: the row is dropped and the error returned
    rw [Bool.not_eq_true] at howned
    rw [howned]
    apply safe_andThen
    apply safe_idle (idle_forgetBucketBackup _ _)
    intro r w₂ ha _
    have ho₂ : Onward w₁ w₂ := ha.grew (by cases r <;> simp [observe, observeStore, observeFailed])
    exact ⟨ho₂, fun _ _ => Safe.ret (fun w' hw' _ => ho₂.outside hw')⟩

/-- The rule for a loop of the deleting part. -/
theorem safe_each {β : Type} {f : β → Go Unit} {bs : List β}
    (h : ∀ b ∈ bs, ∀ w₁, Onward w w₁ →
      Safe (against installationID) (f b) (fun _ w' => Onward w₁ w') w₁) :
    Safe (against installationID) (Action.forEach f bs) (fun _ w' => Onward w w') w := by
  apply Safe.forEach (fun rest w₁ => (∀ b ∈ rest, b ∈ bs) ∧ Onward w w₁)
  · intro b rest w₁ ⟨hrest, ho⟩
    apply (h b (hrest b List.mem_cons_self) w₁ ho).mono
    intro r w₂ ho₂
    cases r with
    | ok _ => exact ⟨fun b' hb' => hrest b' (List.mem_cons_of_mem b hb'), ho.trans ho₂⟩
    | error e => exact Safe.ret (fun w' hw' _ => (ho.trans ho₂).outside hw')
  · intro w₁ ⟨_, ho⟩
    exact Safe.ret (fun w' hw' _ => ho.outside hw')
  · exact ⟨fun b hb => hb, Grew.refl w⟩

theorem take_manifestKey (directory : Text) :
    (directory ++ '/' :: manifestFile).take
      ((directory ++ '/' :: manifestFile).length - ('/' :: manifestFile).length) = directory := by
  rw [List.length_append, Nat.add_sub_cancel, List.take_left]

/-- The rule for asking whether a job claims a directory. -/
theorem safe_abandonedUploadKey {target directory : Text} {Q : Except Err Bool → World → Prop}
    (htime : .time now ∈ thisPass w.log)
    (hQ : ∀ r w', Onward w w' → (r = .ok true → Abandoned target directory w'.log) → Q r w') :
    Safe (against installationID)
      (store (.abandonedUploadKey target directory (now - 24 * hour))) Q w := by
  apply safe_idle (idle_store id)
  intro r w' ha _
  have ho : Onward w w' := ha.grew (by
    cases r <;> simp +contextual [observe, observeStore, observeFailed, Event.Retaining])
  refine hQ r w' ho (fun hr => ?_)
  obtain ⟨db, db', -, -, heff, hlog⟩ := ha
  rw [hr] at hlog heff
  rcases heff with ⟨a, hrun, ha⟩ | ⟨⟨e, he⟩, -⟩
  · cases ha
    have hany := (StoreCall.read_eq_ok.mp hrun).1
    obtain ⟨j, hj, hjob⟩ := List.any_eq_true.mp hany.symm
    obtain ⟨hkind, htarget, hkey, hstate, -, hfinished⟩ := of_decide_eq_true hjob
    exact ⟨now, db.jobs, w.log, hlog, htime, j, hj, hkind, htarget, hkey, hstate, hfinished⟩
  · cases he

theorem cleanAbandonedUploads_safe {backups : List BucketBackup} (hc : Cleared s w.log)
    (hplaced : ∀ b ∈ backups, b.Placed)
    (hno : ∀ b ∈ backups, b.state = .archiveOnly → NoManifest installationID s b w.log) :
    Safe (against installationID) (cleanAbandonedUploads s s.target backups)
      (fun _ w' => Onward w w') w := by
  apply safe_andThen
  apply safe_clock.mono
  intro r w₁ ⟨ho₁, hclock⟩
  refine ⟨ho₁, fun now hnow => safe_from ho₁ ?_⟩
  have htime : .time now ∈ thisPass w₁.log := by
    rw [hclock now hnow]
    simp [thisPass, Event.IsBegan]
  apply safe_each
  intro b hb w₂ ho₂
  obtain ⟨hmem, hskip⟩ := List.mem_filter.mp hb
  have hstate : b.state = .archiveOnly := by
    by_contra hne
    exact of_decide_eq_true hskip (Or.inl hne)
  obtain ⟨directory, hmanifest, harchive⟩ := hplaced b hmem
  rw [hmanifest, take_manifestKey]
  apply safe_andThen
  apply safe_abandonedUploadKey (ho₂.thisPass Event.Retaining.not_began htime)
  intro r w₃ ho₃ hours
  refine ⟨ho₃, fun ours hr => safe_from ho₃ ?_⟩
  have ho : Onward w w₃ := (ho₁.trans ho₂).trans ho₃
  by_cases hb : ours = true
  · rw [if_pos hb]
    -- the listing shows the folder without a manifest, or this pass removed it
    have hj : Justified installationID s w₃.log b.archiveKey := by
      rcases (hno b hmem hstate).onward ho with hshown | ⟨b', -, hkey, hgone⟩
      · exact .abandoned b directory hmanifest hshown (hours (by rw [hr, hb]))
      · exact hkey ▸ .archive b' hgone
    apply safe_andThen
    apply safe_remove (hc.onward ho) hj
    intro r w₄ hlog₄
    have ho₄ : Onward w₃ w₄ := ⟨[_], hlog₄, by simp [Event.Retaining]⟩
    refine ⟨ho₄, fun _ _ => safe_from ho₄ ?_⟩
    apply safe_idle (idle_forgetBucketBackup _ _)
    intro r w₅ ha _
    exact ha.grew (by cases r <;> simp [observe, observeStore, observeFailed])
  · rw [if_neg hb]
    exact Safe.ret (fun w' hw' _ => (Grew.refl w₃).outside hw')

/-- The rule for reading the rows of a folder in the deleting part. -/
theorem safe_prefixBackups {target dbName : Text}
    {Q : Except Err (List BucketBackup) → World → Prop}
    (hQ : ∀ r w', Onward w w' → Sound installationID w' → (∀ bs, r = .ok bs →
      .rows target dbName bs ∈ thisPass w'.log ∧
        ∀ b ∈ bs, (target, b) ∈ w'.db.bucketBackups ∧ b.dbName = dbName) → Q r w') :
    Safe (against installationID) (store (.prefixBackups target dbName)) Q w := by
  apply safe_idle (idle_store id)
  intro r w' ha hi
  have ho : Onward w w' := ha.grew (by
    cases r <;> simp [observe, observeStore, observeFailed, Event.Retaining])
  refine hQ r w' ho hi (fun bs hr => ?_)
  obtain ⟨db, db', -, hrows', heff, hlog⟩ := ha
  rw [hr] at hlog heff
  rcases heff with ⟨a, hrun, ha⟩ | ⟨⟨e, he⟩, -⟩
  · cases ha
    obtain ⟨rfl, rfl⟩ := StoreCall.read_eq_ok.mp hrun
    refine ⟨by rw [hlog]; simp [observe, observeStore, thisPass, Event.IsBegan], ?_⟩
    intro b hb
    rw [hrows']
    exact Database.mem_prefixBackups.mp hb
  · cases he

theorem retainDatabase_safe {dbName : Text} {policy : BackupPolicy} {listed : List BucketBackup}
    (hc : Cleared s w.log) (hrec : .recorded s.target dbName listed ∈ thisPass w.log) :
    Safe (against installationID) (retainDatabase s installationID s.target dbName policy)
      (fun _ w' => Onward w w') w := by
  apply safe_andThen
  apply safe_prefixBackups
  intro r w₁ ho₁ hi₁ hread
  refine ⟨ho₁, fun backups hr => safe_from ho₁ ?_⟩
  obtain ⟨hrows, hmem⟩ := hread backups hr
  have hc₁ := hc.onward ho₁
  have hplaced : ∀ b ∈ backups, b.Placed := fun b hb => hi₁.placed _ (hmem b hb).1
  have hno : ∀ b ∈ backups, b.state = .archiveOnly → NoManifest installationID s b w₁.log := by
    intro b hb hstate
    obtain ⟨hrow, hdb⟩ := hmem b hb
    have hrec₁ := ho₁.thisPass Event.Retaining.not_began hrec
    rw [← hdb] at hrec₁
    exact hi₁.shown (s.target, b) hrow hstate s hc₁.store rfl listed hrec₁
  -- our own half-deletes come first
  apply safe_seq
  · apply safe_each
    intro b hb w₂ ho₂
    obtain ⟨hb', hhalf⟩ := List.mem_filter.mp hb
    obtain ⟨hstate, hmark⟩ : b.state = .archiveOnly ∧ 0 < b.deleteStartedAt := by
      simpa using hhalf
    apply finishDelete_safe (hc₁.onward ho₂)
    obtain ⟨new, hlog, hnew⟩ := ho₂
    rw [hlog]
    apply Removable.append hnew
    rcases hno b hb' hstate with hshown | ⟨b', -, hkey, hgone⟩
    · exact Or.inr ⟨hshown, hi₁.markers (s.target, b) (hmem b hb').1 hmark.ne'⟩
    · exact Or.inl ⟨b', hkey, hgone⟩
  intro _ w₂ ho₂
  by_cases hblocked : blockedByForeignContent backups installationID = true
  · rw [if_pos hblocked]
    exact Safe.ret (fun w' hw' _ => (Grew.refl w₂).outside hw')
  · rw [if_neg hblocked]
    apply safe_seq (safe_clock.mono (fun _ _ h => h.1))
    intro now w₃ ho₃
    apply safe_seq
    · apply safe_each
      intro b hb w₄ ho₄
      have ho : Onward w₁ w₄ := (ho₂.trans ho₃).trans ho₄
      have hb' : b ∈ backups := (complete_of_mem_selectExpired hb).1
      have hrows' := ho.thisPass Event.Retaining.not_began hrows
      exact deleteBackup_safe (hc₁.onward ho) hrows' hb' (hplaced b hb')
    intro _ w₄ ho₄
    have ho : Onward w₁ w₄ := (ho₂.trans ho₃).trans ho₄
    exact cleanAbandonedUploads_safe (hc₁.onward ho) hplaced
      (fun b hb hstate => (hno b hb hstate).onward ho)

theorem retainEach_safe {policy : BackupPolicy} {databases : List Text} (hc : Cleared s w.log)
    (hrec : ∀ d ∈ databases, ∃ bs, .recorded s.target d bs ∈ thisPass w.log) :
    Safe (against installationID) (retainEach s installationID policy databases)
      (fun _ _ => True) w := by
  induction databases generalizing w with
  | nil => exact Safe.ret (fun _ _ _ => trivial)
  | cons dbName rest ih =>
    obtain ⟨listed, hlisted⟩ := hrec dbName List.mem_cons_self
    apply Safe.bind
    apply (retainDatabase_safe hc hlisted).mono
    intro _ w₁ ho
    apply ih (hc.onward ho)
    intro d hd
    obtain ⟨bs, hbs⟩ := hrec d (List.mem_cons_of_mem dbName hd)
    exact ⟨bs, ho.thisPass Event.Retaining.not_began hbs⟩

/-! ### Reconciling -/

/-- Events that neither begin a pass nor show a listing that failed. -/
def Event.Clean : Event → Prop
  | .began _ => False
  | .listed _ (.error _) => False
  | _ => True

theorem Event.Clean.not_began {e : Event} (h : e.Clean) : ¬ e.IsBegan := by
  cases e <;> simp_all [Event.Clean, Event.IsBegan]

/-- The log has grown within the pass, and every listing in between succeeded. -/
abbrev Ahead := Grew Event.Clean

theorem clean_observeStore {β : Type} (q : StoreCall β) (db : Database) (r : Except Err β) :
    ∀ e ∈ observe db (.store q) r, e.Clean := by
  intro e he
  cases r with
  | error =>
    obtain ⟨target, key, rfl⟩ := mem_observeFailed he
    trivial
  | ok a =>
    cases q <;> simp [observe, observeStore] at he
    all_goals first
      | (rw [he]; trivial)
      | (rw [he.2]; trivial)

/-- A statement that leaves the view alone only moves the log ahead. -/
theorem safe_store {β : Type} {q : StoreCall β} (hq : ¬ q.WritesView) :
    Safe (against installationID) (store q) (fun _ w' => Ahead w w') w := by
  apply safe_idle (idle_store hq)
  intro r w' ha _
  exact ha.grew (fun db => clean_observeStore q db r)

/-- A step followed by one that has nothing left to show. -/
theorem safe_then {α β : Type} {x : Go α} {f : α → Go β}
    (h : Safe (against installationID) x (fun r w₁ => ∀ a, r = .ok a →
      Safe (against installationID) (f a) (fun _ _ => True) w₁) w) :
    Safe (against installationID) (x.bind f) (fun _ _ => True) w := by
  apply Safe.bindAction
  apply h.mono
  intro r w₁ hf
  cases r with
  | ok a => exact hf a rfl
  | error e => exact Safe.ret (fun _ _ _ => trivial)

theorem readEntry_safe {recorded : List BucketBackup} {dbName : Text} {entry : Entry} :
    Safe (against installationID) (readEntry s recorded dbName entry)
      (fun b w' => Ahead w w' ∧ RowOf dbName entry b) w := by
  unfold readEntry
  split
  · next hstate =>
    split
    · exact Safe.ret (fun w' hw' _ => ⟨(Grew.refl w).outside hw', rowOf_withRecorded _ _ _⟩)
    · apply Safe.bind
      apply readManifest_safe
      intro r w₁ ho _
      have ha : Ahead w w₁ := by
        obtain ⟨new, hlog, hnew⟩ := ho
        refine ⟨new, hlog, fun e he => ?_⟩
        have := hnew e he
        cases e <;> simp_all [Event.Retaining, Event.Clean]
      exact Safe.ret (fun w' hw' _ => ⟨ha.outside hw', rowOf_classify _ hstate _⟩)
  · exact Safe.ret (fun w' hw' _ => ⟨(Grew.refl w).outside hw', rowOf_row _ _⟩)

theorem readEntries_safe {recorded : List BucketBackup} {dbName : Text} {entries : List Entry} :
    Safe (against installationID) (readEntries s recorded dbName entries)
      (fun bs w' => Ahead w w' ∧ List.Forall₂ (RowOf dbName) entries bs) w := by
  induction entries generalizing w with
  | nil => exact Safe.ret (fun w' hw' _ => ⟨(Grew.refl w).outside hw', .nil⟩)
  | cons entry rest ih =>
    apply Safe.bind
    apply readEntry_safe.mono
    intro b w₁ ⟨ha₁, hb⟩
    apply Safe.bind
    apply ih.mono
    intro bs w₂ ⟨ha₂, hbs⟩
    exact Safe.ret (fun w' hw' _ => ⟨(ha₁.trans ha₂).outside hw', .cons hb hbs⟩)

/-- A folder that was listed successfully, as its entries. -/
theorem listBackups_safe {dbName : Text} :
    Safe (against installationID) (listBackups s dbName) (fun r w' => ∀ entries, r = .ok entries →
      Ahead w w' ∧ ∃ objects, .listed (s.databaseRoot dbName) (.ok objects) ∈ thisPass w'.log ∧
        entries = entriesFrom (s.databaseRoot dbName) objects) w := by
  unfold listBackups
  split
  · exact Safe.ret (fun _ _ _ entries he => by cases he)
  · apply Safe.bindAction
    apply safe_idle (idle_bucket s (fun r e he => by simp_all [observeBucket, Event.Quiet]))
    intro r w₁ ha _
    cases r with
    | error e => exact Safe.ret (fun _ _ _ entries he => by cases he)
    | ok objects =>
      have hahead : Ahead w w₁ := ha.grew (by simp [observe, observeBucket, Event.Clean])
      obtain ⟨db, db', -, -, -, hlog⟩ := ha
      apply Safe.ret
      intro w' ho _ entries he
      cases he
      refine ⟨hahead.outside ho, objects, ?_, rfl⟩
      rw [ho.1, hlog]
      simp [observe, observeBucket, thisPass, Event.IsBegan]

/-- The rule for recording rows of distinct directories, the archive-only ones
    shown by a listing of this pass. -/
theorem safe_record {state : PrefixState} {bs : List BucketBackup}
    (hkeys : (bs.map BucketBackup.manifestKey).Nodup) (hplaced : ∀ b ∈ bs, b.Placed)
    (hshown : ∀ b ∈ bs, b.state = .archiveOnly → ShownArchiveOnly b w.log) :
    Safe (against installationID) (store (.replacePrefix target state bs now))
      (fun r w' => Ahead w w' ∧
        (r = .ok () → .recorded target state.dbName bs ∈ thisPass w'.log)) w := by
  apply safe_ask
  · intro w₁ r w₂ ho hi ha
    obtain ⟨hlog, ⟨a, hrun, rfl⟩ | ⟨⟨e, rfl⟩, hdb⟩⟩ := ha
    · exact hi.record hlog (StoreCall.write_eq_ok.mp hrun) hkeys hplaced
        (fun b hb hstate => ho.1 ▸ hshown b hb hstate)
    · exact hi.extend hlog (by simp [observe, observeFailed, Event.Quiet]) (fun r hr => hdb ▸ hr)
  · intro r w' ha _
    refine ⟨ha.grew (fun db => clean_observeStore _ db r), fun hr => ?_⟩
    obtain ⟨db, db', -, -, -, hlog⟩ := ha
    rw [hlog, hr]
    simp [observe, observeStore, thisPass, Event.IsBegan]

/-- The rule for recording a folder as a listing of this pass found it. -/
theorem safe_recordListing {target root dbName : Text} {objects : List Object} {state : PrefixState}
    {bs : List BucketBackup} (hlisted : .listed root (.ok objects) ∈ thisPass w.log)
    (hbs : List.Forall₂ (RowOf dbName) (entriesFrom root objects) bs) :
    Safe (against installationID) (store (.replacePrefix target state bs now))
      (fun r w' => Ahead w w' ∧
        (r = .ok () → .recorded target state.dbName bs ∈ thisPass w'.log)) w := by
  apply safe_record (rowOf_keys_nodup hbs)
  · intro b hb
    obtain ⟨e, he, hrow⟩ := Table.exists_left hbs hb
    exact hrow.placed he
  · intro b hb hstate
    obtain ⟨e, he, hrow⟩ := Table.exists_left hbs hb
    exact ⟨root, objects, hlisted, e, he, hrow.archiveOnly hstate, hrow.manifestKey.symm,
      hrow.archiveKey.symm⟩

theorem reconcilePrefix_safe {target dbName : Text} :
    Safe (against installationID) (reconcilePrefix s target dbName) (fun r w' => r = .ok () →
      Ahead w w' ∧ ∃ bs, .recorded target dbName bs ∈ thisPass w'.log) w := by
  apply Safe.bindAction
  apply listBackups_safe.mono
  intro r w₁ hlist
  cases r with
  | error e => exact Safe.ret (fun _ _ _ h => by cases h)
  | ok entries =>
    obtain ⟨ha₁, objects, hlisted, rfl⟩ := hlist entries rfl
    apply Safe.bindAction
    apply (safe_store id).mono
    intro r w₂ ha₂
    cases r with
    | error e => exact Safe.ret (fun _ _ _ h => by cases h)
    | ok recorded =>
      apply Safe.bindAction
      apply Safe.lift
      apply readEntries_safe.mono
      intro bs w₃ ⟨ha₃, hbs⟩
      apply Safe.ret
      intro w₃' ho₃ _
      apply Safe.bindAction
      apply safe_clock.mono
      intro r w₄ ⟨ho₄, hclock⟩
      cases r with
      | error e => exact Safe.ret (fun _ _ _ h => by cases h)
      | ok now =>
        have ha₄ : Ahead w₃' w₄ := ⟨[_], hclock now rfl, by simp [Event.Clean]⟩
        have ha : Ahead w₁ w₄ := (ha₂.trans (ha₃.outside ho₃)).trans ha₄
        apply (safe_recordListing (ha.thisPass Event.Clean.not_began hlisted) hbs).mono
        intro r w₅ ⟨ha₅, hrec⟩ hr
        exact ⟨(ha₁.trans ha).trans ha₅, bs, hrec hr⟩

theorem reconcilePrefixes_safe {names : List Text} {failure : Option Err} :
    Safe (against installationID) (reconcilePrefixes s target names failure) (fun r w' => r = none →
      failure = none ∧ Ahead w w' ∧
        ∀ d ∈ names, ∃ bs, .recorded target d bs ∈ thisPass w'.log) w := by
  induction names generalizing failure w with
  | nil =>
    apply Safe.ret
    intro w' ho _ hr
    exact ⟨hr, (Grew.refl w).outside ho, by simp⟩
  | cons name rest ih =>
    apply Safe.bind
    apply reconcilePrefix_safe.mono
    intro r w₁ h₁
    cases r with
    | error e =>
      -- a failure is never forgotten
      apply ih.mono
      intro r w' h hr
      cases (h hr).1
    | ok u =>
      obtain ⟨ha₁, bs, hrec⟩ := h₁ rfl
      apply ih.mono
      intro r w' h hr
      obtain ⟨hf, ha₂, hrest⟩ := h hr
      refine ⟨hf, ha₁.trans ha₂, ?_⟩
      intro d hd
      rcases List.mem_cons.mp hd with rfl | hd
      · exact ⟨bs, ha₂.thisPass Event.Clean.not_began hrec⟩
      · exact hrest d hd

/-! ### A pass -/

/-- The pass is over this store and none of its listings has failed. -/
def Steady (s : Settings) (w : World) : Prop :=
  passStore w.log = some s ∧ ∀ root e, .listed root (.error e) ∉ thisPass w.log

theorem Steady.ahead (h : Steady s w) (ha : Ahead w w') : Steady s w' := by
  obtain ⟨new, hlog, hnew⟩ := ha
  have hbegan : ∀ e ∈ new, ¬ e.IsBegan := fun e he => (hnew e he).not_began
  constructor
  · rw [hlog, passStore_append hbegan]
    exact h.1
  · intro root e he
    rw [hlog, thisPass_append hbegan] at he
    rcases List.mem_append.mp he with he | he
    · exact hnew _ he
    · exact h.2 root e he

theorem listDatabases_safe :
    Safe (against installationID) (listDatabases s)
      (fun r w' => ∀ databases, r = .ok databases → Ahead w w') w := by
  apply Safe.bindAction
  apply safe_idle (idle_bucket s (fun r e he => by simp_all [observeBucket, Event.Quiet]))
  intro r w₁ ha _
  cases r with
  | error e => exact Safe.ret (fun _ _ _ databases h => by cases h)
  | ok objects =>
    have hahead : Ahead w w₁ := ha.grew (by simp [observe, observeBucket, Event.Clean])
    exact Safe.ret (fun w' ho _ _ _ => hahead.outside ho)

theorem tombstonePrefixes_safe {present : List Text} :
    Safe (against installationID) (tombstonePrefixes target present now)
      (fun _ w' => Ahead w w') w := by
  apply Safe.bindAction
  apply (safe_store id).mono
  intro r w₁ ha₁
  cases r with
  | error e => exact Safe.ret (fun w' ho _ => ha₁.outside ho)
  | ok names =>
    apply Safe.forEach (fun _ w₂ => Ahead w w₂)
    · intro name rest w₂ ha₂
      have hrecord : Safe (against installationID)
          (store (.replacePrefix target { dbName := name } [] now))
          (fun r w' => Ahead w₂ w' ∧
            (r = .ok () → .recorded target name [] ∈ thisPass w'.log)) w₂ :=
        safe_record List.nodup_nil (by simp) (by simp)
      apply hrecord.mono
      intro r w₃ ⟨ha₃, _⟩
      cases r with
      | ok _ => exact ha₂.trans ha₃
      | error e => exact Safe.ret (fun w' ho _ => (ha₂.trans ha₃).outside ho)
    · intro w₂ ha₂
      exact Safe.ret (fun w' ho _ => ha₂.outside ho)
    · exact ha₁

theorem setTargetReconciled_safe {lastError : String} :
    Safe (against installationID) (setTargetReconciled target now lastError) (fun r w' =>
      Ahead w w' ∧ (r = .ok () → lastError = "" → .reconciled target ∈ thisPass w'.log)) w := by
  apply Safe.bindAction
  apply (safe_store id).mono
  intro r w₁ ha₁
  cases r with
  | error e => exact Safe.ret (fun w' ho _ => ⟨ha₁.outside ho, fun h => by cases h⟩)
  | ok _ =>
    apply safe_idle (idle_store id)
    intro r w₂ ha _
    refine ⟨ha₁.trans (ha.grew (fun db => clean_observeStore _ db r)), fun hr he => ?_⟩
    obtain ⟨db, db', -, -, -, hlog⟩ := ha
    rw [hlog, hr]
    simp [observe, observeStore, he, thisPass, Event.IsBegan]

theorem abandonPass_safe {e : Err} :
    Safe (against installationID) (abandonPass target e) (fun _ _ => True) w := by
  apply safe_then
  apply safe_clock.mono
  intro r w₁ _ now _
  apply safe_then
  apply Safe.lift
  apply setTargetReconciled_safe.mono
  intro r w₂ _
  exact Safe.ret (fun _ _ _ _ _ => Safe.ret (fun _ _ _ => trivial))

theorem retain_safe {databases : List Text} (hsteady : Steady s w)
    (hcomplete : .reconciled s.target ∈ thisPass w.log)
    (hrec : ∀ d ∈ databases, ∃ bs, .recorded s.target d bs ∈ thisPass w.log) :
    Safe (against installationID) (retain s installationID databases) (fun _ _ => True) w := by
  apply Safe.bind
  apply safe_idle (idle_bucket s (fun r e he => by
    cases r <;> simp_all [observeBucket, Event.Quiet]))
  intro r w₁ ha _
  cases r with
  | error e => exact Safe.ret (fun _ _ _ => trivial)
  | ok v =>
    have ha₁ : Ahead w w₁ := ha.grew (by simp [observe, observeBucket, Event.Clean])
    have hv : .protection v ∈ thisPass w₁.log := by
      obtain ⟨db, db', -, -, -, hlog⟩ := ha
      rw [hlog]
      simp [observe, observeBucket, thisPass, Event.IsBegan]
    by_cases hmay : mayRetain s v = true
    · simp only [hmay, if_true]
      apply Safe.bind
      apply Safe.bind
      apply (safe_store id).mono
      intro r w₂ ha₂
      have ha : Ahead w w₂ := ha₁.trans ha₂
      have hc : Cleared s w₂.log := by
        obtain ⟨hstore, hlisted⟩ := hsteady.ahead ha
        refine ⟨hstore, hlisted, ha.thisPass Event.Clean.not_began hcomplete, v,
          ha₂.thisPass Event.Clean.not_began hv, ?_⟩
        simpa [mayRetain] using hmay
      have hrec₂ : ∀ d ∈ databases, ∃ bs, .recorded s.target d bs ∈ thisPass w₂.log := by
        intro d hd
        obtain ⟨bs, hbs⟩ := hrec d hd
        exact ⟨bs, ha.thisPass Event.Clean.not_began hbs⟩
      have hnext : ∀ policy w₃, Outside w₂ w₃ → Safe (against installationID)
          (retainEach s installationID policy databases) (fun _ _ => True) w₃ :=
        fun policy w₃ ho => retainEach_safe (ho.1 ▸ hc) (ho.1 ▸ hrec₂)
      cases r with
      | ok policy => exact Safe.ret (fun w₃ ho _ => hnext policy w₃ ho)
      | error e => exact Safe.ret (fun w₃ ho _ => hnext .fallback w₃ ho)
    · simp only [hmay]
      exact Safe.ret (fun _ _ _ => trivial)

theorem pruneHistory_safe :
    Safe (against installationID) pruneHistory (fun _ _ => True) w := by
  apply Safe.bind
  apply safe_idle idle_now
  intro now w₁ _ _
  apply Safe.bind
  apply (safe_store id).mono
  intro r w₂ _
  exact Safe.ret (fun _ _ _ => trivial)

theorem afterReconcile_safe {databases : List Text} (hsteady : Steady s w)
    (hcomplete : .reconciled s.target ∈ thisPass w.log)
    (hrec : ∀ d ∈ databases, ∃ bs, .recorded s.target d bs ∈ thisPass w.log) :
    Safe (against installationID) (afterReconcile s installationID databases)
      (fun _ _ => True) w := by
  apply Safe.bind
  apply (safe_store id).mono
  intro _ w₁ ha₁
  apply Safe.bind
  apply (safe_store id).mono
  intro on w₂ ha₂
  have ha : Ahead w w₂ := ha₁.trans ha₂
  split
  · apply Safe.bind
    apply (retain_safe (hsteady.ahead ha) (ha.thisPass Event.Clean.not_began hcomplete) _).mono
    · intro _ w₃ _
      exact pruneHistory_safe
    · intro d hd
      obtain ⟨bs, hbs⟩ := hrec d hd
      exact ⟨bs, ha.thisPass Event.Clean.not_began hbs⟩
  · exact Safe.ret (fun _ _ _ => trivial)

theorem reconcile_safe :
    Safe (against installationID) (reconcile s installationID) (fun _ _ => True) (w.begin s) := by
  have hsteady : Steady s (w.begin s) := by
    refine ⟨rfl, fun root e he => ?_⟩
    simp [World.begin, thisPass, Event.IsBegan] at he
  apply safe_then
  apply (safe_store id).mono
  intro r w₁ ha₁ _ _
  apply safe_then
  apply Safe.lift
  apply listDatabases_safe.mono
  intro r w₂ hlist
  apply Safe.ret
  intro w₂' ho₂ _ outcome houtcome
  cases houtcome
  cases r with
  | error e => exact abandonPass_safe
  | ok databases =>
    have ha₂ : Ahead w₁ w₂' := (hlist databases rfl).outside ho₂
    apply safe_then
    apply safe_clock.mono
    rintro r w₃ ⟨_, hclock⟩ now hnow
    have ha₃ : Ahead w₂' w₃ := ⟨[_], hclock now hnow, by simp [Event.Clean]⟩
    apply safe_then
    apply tombstonePrefixes_safe.mono
    intro r w₄ ha₄ _ _
    apply safe_then
    apply Safe.lift
    apply reconcilePrefixes_safe.mono
    intro failure w₅ hprefixes
    apply Safe.ret
    intro w₅' ho₅ _ failure' hfailure
    cases hfailure
    cases failure with
    | some e => exact abandonPass_safe
    | none =>
      obtain ⟨-, ha₅, hrec⟩ := hprefixes rfl
      have ha₅' : Ahead w₄ w₅' := ha₅.outside ho₅
      apply safe_then
      apply safe_clock.mono
      rintro r w₆ ⟨_, hclock₆⟩ now₆ hnow₆
      have ha₆ : Ahead w₅' w₆ := ⟨[_], hclock₆ now₆ hnow₆, by simp [Event.Clean]⟩
      apply safe_then
      apply setTargetReconciled_safe.mono
      rintro r w₇ ⟨ha₇, hcomplete⟩ u hu
      apply Safe.lift
      have hsteady₇ := hsteady.ahead
        ((((((ha₁.trans ha₂).trans ha₃).trans ha₄).trans ha₅').trans ha₆).trans ha₇)
      apply (afterReconcile_safe hsteady₇ (hcomplete hu rfl) _).mono
      · intro _ w₈ _
        exact Safe.ret (fun _ _ _ => trivial)
      · intro d hd
        obtain ⟨bs, hbs⟩ := hrec d hd
        rw [← ho₅.1] at hbs
        exact ⟨bs, (ha₆.trans ha₇).thisPass Event.Clean.not_began hbs⟩

theorem Reached.sound (h : Reached installationID w) : Sound installationID w := by
  induction h with
  | start w rows log =>
    refine ⟨by rw [log]; trivial, ?_, ?_, ?_⟩ <;>
    · intro r hr
      rw [rows] at hr
      cases hr
  | outside _ step ih => exact ih.outside step
  | pass s _ run ih =>
    exact (Safe.trace (S := against installationID) (fun _ _ h => h)
      (fun _ _ step hi => hi.outside step) run (ih.begin s) reconcile_safe).1

/-- In every run of passes every key passed to `Remove` is justified by what
    the log shows before it, in a pass that was cleared to delete. -/
theorem removals_justified (h : Reached installationID w) {later earlier : List Event}
    {s : Settings} {key : Text} {ok : Bool}
    (hlog : w.log = later ++ .removed s key ok :: earlier) :
    Cleared s earlier ∧ Justified installationID s earlier key :=
  (hlog ▸ h.sound.removals).split

theorem Reached.play (h : Reached installationID w) (plan : ∀ ⦃β : Type⦄, Call β → Fault)
    (s : Settings) : Reached installationID (playPass plan s installationID w) :=
  .pass s h (Prog.run_trace (fun _ w c => exec_adversary (plan c) w c) _ _)

theorem removals_justified_two_backups : ∃ later earlier,
    (playPass noFaults vault "home" twoBackups).log =
      later ++ .removed vault (appArchive "20240101T000000Z") true :: earlier ∧
    Cleared vault earlier ∧ Justified "home" vault earlier (appArchive "20240101T000000Z") := by
  have hmem : .removed vault (appArchive "20240101T000000Z") true ∈
      (playPass noFaults vault "home" twoBackups).log := by decide +kernel
  obtain ⟨later, earlier, hlog⟩ := List.append_of_mem hmem
  have hreached : Reached "home" (playPass noFaults vault "home" twoBackups) :=
    (Reached.start twoBackups rfl rfl).play noFaults vault
  exact ⟨later, earlier, hlog, removals_justified hreached hlog⟩

/-! ### A listing that was not recorded -/

/-- As `MarkedSince`, over every listing since, recorded or not. -/
def MarkedUnseen (installationID : String) (target key : Text) (log : List Event) : Prop :=
  ∃ since before b, log = since ++ .marked target key :: before ∧ b.manifestKey = key ∧
    Confirmed installationID b before ∧
    ∀ root objects, .listed root (.ok objects) ∈ since → ∀ o ∈ objects, o.key ≠ key

/-- As `Justified`, with `MarkedUnseen` for half-deleted backups. -/
def JustifiedUnseen (installationID : String) (s : Settings) (log : List Event) (key : Text) :
    Prop :=
  (∃ b, key = b.manifestKey ∧ Starting installationID s.target b log) ∨
  (∃ b, key = b.archiveKey ∧ ManifestGone installationID s b log) ∨
  (∃ b, key = b.archiveKey ∧ ShownArchiveOnly b log ∧
    MarkedUnseen installationID s.target b.manifestKey log) ∨
  (∃ b directory, key = b.archiveKey ∧ b.manifestKey = directory ++ '/' :: manifestFile ∧
    ShownArchiveOnly b log ∧ Abandoned s.target directory log)

/-- The removal of the manifest fails. -/
def manifestStays : ∀ ⦃β : Type⦄, Call β → Fault
  | _, .bucket _ (.removeObject _) => .before
  | _, _ => .none

/-- The folder is listed, and recording it fails. -/
def recordingFails : ∀ ⦃β : Type⦄, Call β → Fault
  | _, .store (.replacePrefix ..) => .before
  | _, _ => .none

/-- A deletion is marked and its manifest stays; the next pass lists the
    manifest but cannot record what it saw; then somebody removes the manifest. -/
def manifestTakenAway : World :=
  (playPass recordingFails vault "home"
    (playPass manifestStays vault "home" twoBackups)).without (appManifest "20240101T000000Z")

def Event.isRemoval : Event → Bool
  | .removed .. => true
  | _ => false

def Event.isMark : Event → Bool
  | .marked .. => true
  | _ => false

/-- Whether the event is a listing that shows a key. -/
def Event.shows (key : Text) : Event → Bool
  | .listed _ (.ok objects) => objects.any (·.key = key)
  | _ => false

def Event.isRows : Event → Bool
  | .rows .. => true
  | _ => false

/-- What decides that the newest removal of a log has none of the reasons: rows
    were read right before it, nothing was removed before it in its pass, and a
    listing since the last mark showed the manifest. -/
def unjustified (manifest archive : Text) (log : List Event) : Bool :=
  match log.dropWhile (fun e => !e.isRemoval) with
  | .removed s key _ :: earlier =>
    decide (s = vault) && decide (key = archive) && (earlier.head?.any Event.isRows) &&
      !(thisPass earlier).any Event.isRemoval &&
      (earlier.takeWhile (fun e => !e.isMark)).any (Event.shows manifest)
  | _ => false

/-- What stands before the newest mark is in every part that ends at a mark. -/
theorem mem_of_mem_takeWhile_mark {since before : List Event} {target key : Text} {e : Event}
    (h : e ∈ (since ++ .marked target key :: before).takeWhile (fun e => !e.isMark)) :
    e ∈ since := by
  induction since with
  | nil => simp [Event.isMark] at h
  | cons x since ih =>
    rw [List.cons_append, List.takeWhile_cons] at h
    split at h
    · rcases List.mem_cons.mp h with rfl | h
      · exact List.mem_cons_self
      · exact List.mem_cons_of_mem x (ih h)
    · cases h

theorem not_justifiedUnseen {name : String} {earlier : List Event}
    (hhead : earlier.head?.any Event.isRows = true)
    (hnone : (thisPass earlier).any Event.isRemoval = false)
    (hseen : (earlier.takeWhile (fun e => !e.isMark)).any (Event.shows (appManifest name)) = true) :
    ¬ JustifiedUnseen installationID vault earlier (appArchive name) := by
  intro h
  rcases h with ⟨b, -, before, rfl, -⟩ | ⟨b, -, since, before, rfl, hsince, -⟩ |
    ⟨b, hkey, hshown, hmarked⟩ | ⟨b, directory, -, -, -, now, jobs, rest, rfl, -⟩
  · -- a mark is not rows
    simp [Event.isRows] at hhead
  · -- a removal of this pass
    rw [thisPass_append hsince] at hnone
    simp [thisPass, Event.IsBegan, Event.isRemoval] at hnone
  · -- the marker: the listing after it shows the manifest of the same folder
    obtain ⟨root, objects, -, e, he, -, hmkey, hakey⟩ := hshown
    obtain ⟨f, -, rfl⟩ := mem_entriesFrom.mp he
    have hdir : root ++ f.name = appFolder name :=
      List.append_cancel_right (hakey.trans hkey.symm)
    have hb : b.manifestKey = appManifest name := by
      rw [← hmkey]
      show root ++ f.name ++ '/' :: manifestFile = _
      rw [hdir]
      rfl
    obtain ⟨since, before, b', rfl, -, -, hunseen⟩ := hmarked
    obtain ⟨e', he', hshows⟩ := List.any_eq_true.mp hseen
    have hmem := mem_of_mem_takeWhile_mark he'
    cases e' with
    | listed root objects =>
      cases objects with
      | error _ => simp [Event.shows] at hshows
      | ok objects =>
        obtain ⟨o, ho, hokey⟩ := List.any_eq_true.mp hshows
        exact hunseen root objects hmem o ho (by rw [hb]; exact of_decide_eq_true hokey)
    | _ => simp [Event.shows] at hshows
  · simp [Event.isRows] at hhead

/-- A removal in a run of passes whose archive-only row carries a marker set
    before a listing that showed the manifest: that listing was not recorded. -/
theorem removal_after_unrecorded_listing : ∃ w later earlier key ok, Reached "home" w ∧
    w.log = later ++ .removed vault key ok :: earlier ∧
    ¬ JustifiedUnseen "home" vault earlier key := by
  have hreached : Reached "home" (playPass noFaults vault "home" manifestTakenAway) := by
    have h₀ : Reached "home" twoBackups := .start twoBackups rfl rfl
    have h₂ := (h₀.play manifestStays vault).play recordingFails vault
    have h₃ : Reached "home" manifestTakenAway := .outside h₂ (outside_without _ _)
    exact h₃.play noFaults vault
  have hcheck : unjustified (appManifest "20240101T000000Z") (appArchive "20240101T000000Z")
      (playPass noFaults vault "home" manifestTakenAway).log = true := by decide +kernel
  generalize playPass noFaults vault "home" manifestTakenAway = w at hreached hcheck
  have hsplit := List.takeWhile_append_dropWhile (p := fun e => !e.isRemoval) (l := w.log)
  unfold unjustified at hcheck
  split at hcheck
  · next s key ok earlier hdrop =>
    simp only [Bool.and_eq_true, decide_eq_true_eq, Bool.not_eq_true'] at hcheck
    obtain ⟨⟨⟨⟨rfl, rfl⟩, hhead⟩, hnone⟩, hseen⟩ := hcheck
    rw [hdrop] at hsplit
    exact ⟨w, _, earlier, _, ok, hreached, hsplit.symm, not_justifiedUnseen hhead hnone hseen⟩
  · cases hcheck

end Pgfy
