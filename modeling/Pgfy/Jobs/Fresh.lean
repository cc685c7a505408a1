import Pgfy.Jobs.Cached

/-! # The view after a pass

    Once the folders are recorded, retention only drops or changes rows of
    backups whose manifest or archive it has removed: the check before a deletion
    reads the manifest once more and finds what was recorded. So the view after a
    pass is the one computed from the listings, apart from what the pass removed.
-/

namespace Pgfy

open Calendar Storage Program

/-! ### The view while retention runs -/

/-- The view as it was in `v`, apart from what this pass has removed since. -/
structure Pruned (content : Holdings) (s : Settings) (v w : World) : Prop where
  prefixes : w.db.prefixes = v.db.prefixes
  heard : w.heard = v.heard
  rows : ∀ b, (s.target, b) ∈ w.db.bucketBackups →
    (∃ b₀, (s.target, b₀) ∈ v.db.bucketBackups ∧ b.unmarked = b₀.unmarked) ∨ w.Removed s b
  there : ∀ b₀, (s.target, b₀) ∈ v.db.bucketBackups →
    (∃ b, (s.target, b) ∈ w.db.bucketBackups ∧ b.unmarked = b₀.unmarked) ∨ w.Removed s b₀
  /-- a complete row says what its manifest says -/
  complete : ∀ b, (s.target, b) ∈ w.db.bucketBackups → b.state = .complete →
    Attested content s.target b

/-- The invariant of the part of a pass that deletes. -/
structure Thinning (content : Holdings) (s : Settings) (w₀ v w : World) : Prop where
  keeping : Keeping content s.target w₀ w
  pruned : Pruned content s v w

section
variable {content : Holdings} {s : Settings} {w₀ v w w' : World} {b : BucketBackup}

theorem World.Removed.grow (h : w.Removed s b) (hgrew : Grew Event.Silent w w') :
    w'.Removed s b :=
  h.imp (hgrew.thisPass Event.Silent.not_began) (hgrew.thisPass Event.Silent.not_began)

/-- Rows that are the same without their markers differ in these only. -/
theorem BucketBackup.eq_of_unmarked {b' : BucketBackup} (h : b.unmarked = b'.unmarked) :
    b = { b' with deleteStartedAt := b.deleteStartedAt } := by
  cases b
  cases b'
  simpa [BucketBackup.unmarked] using h

/-- Rows that went, or changed, are of backups that were removed. -/
theorem Pruned.change (h : Pruned content s v w) (hprefixes : w'.db.prefixes = w.db.prefixes)
    (hgrew : Grew Event.Silent w w')
    (hrows : ∀ b, (s.target, b) ∈ w'.db.bucketBackups →
      (∃ b₁, (s.target, b₁) ∈ w.db.bucketBackups ∧ b.unmarked = b₁.unmarked) ∨
        (w'.Removed s b ∧ b.state ≠ .complete))
    (hthere : ∀ b₁, (s.target, b₁) ∈ w.db.bucketBackups →
      (∃ b, (s.target, b) ∈ w'.db.bucketBackups ∧ b.unmarked = b₁.unmarked) ∨ w'.Removed s b₁) :
    Pruned content s v w' := by
  refine ⟨hprefixes.trans h.prefixes, hgrew.heard.trans h.heard, ?_, ?_, ?_⟩
  · intro b hb
    rcases hrows b hb with ⟨b₁, hb₁, heq⟩ | ⟨hremoved, -⟩
    · rcases h.rows b₁ hb₁ with ⟨b₀, hb₀, heq₀⟩ | hremoved
      · exact Or.inl ⟨b₀, hb₀, heq.trans heq₀⟩
      · rw [BucketBackup.eq_of_unmarked heq]
        exact Or.inr (hremoved.grow hgrew)
    · exact Or.inr hremoved
  · intro b₀ hb₀
    rcases h.there b₀ hb₀ with ⟨b₁, hb₁, heq₁⟩ | hremoved
    · rcases hthere b₁ hb₁ with ⟨b, hb, heq⟩ | hremoved
      · exact Or.inl ⟨b, hb, heq.trans heq₁⟩
      · rw [BucketBackup.eq_of_unmarked heq₁] at hremoved
        exact Or.inr hremoved
    · exact Or.inr (hremoved.grow hgrew)
  · intro b hb hstate
    rcases hrows b hb with ⟨b₁, hb₁, heq⟩ | ⟨-, hne⟩
    · rw [BucketBackup.eq_of_unmarked heq] at hstate ⊢
      exact (h.complete b₁ hb₁ hstate).marked _
    · exact absurd hstate hne

theorem thinning_lasts : Lasts (Thinning content s w₀ v) := by
  intro w w' hstill h
  refine ⟨h.keeping.congr hstill.view hstill.prefixes, ?_⟩
  apply h.pruned.change hstill.prefixes hstill.grew <;> rw [hstill.view]
  · exact fun b hb => Or.inl ⟨b, hb, rfl⟩
  · exact fun b hb => Or.inl ⟨b, hb, rfl⟩

/-- Rows of the store that go do not matter to the rest of the view. -/
theorem Keeping.forget {target key : Text} (h : Keeping content target w₀ w)
    (hdb : w'.db = w.db.forgetBucketBackup target key) : Keeping content target w₀ w' := by
  have hmem : ∀ r, r ∈ w'.db.bucketBackups ↔ r ∈ w.db.bucketBackups ∧
      Database.rowKey r ≠ (target, key) := by
    intro r
    rw [hdb]
    exact Table.mem_delete
  have hprefixes : w'.db.prefixes = w.db.prefixes := by rw [hdb]; rfl
  refine ⟨⟨?_, ?_, ?_, ?_⟩, ?_, ?_⟩
  · exact fun r hr => h.coherent.attested r ((hmem r).mp hr).1
  · exact fun r hr => h.coherent.placed r ((hmem r).mp hr).1
  · rw [hdb]
    exact Table.nodup_delete h.coherent.keys
  · rw [hprefixes]
    exact fun r hr => h.coherent.folders r ((hmem r).mp hr).1
  · intro r hr
    rw [hmem, ← h.elsewhere.rows r hr]
    exact ⟨fun hmem => hmem.1, fun hmem => ⟨hmem, fun hkey => hr (Prod.mk.inj hkey).1⟩⟩
  · rw [hprefixes]
    exact h.elsewhere.counts

/-- Marking a row, or making it archive-only, leaves its owner and its place. -/
theorem Keeping.modify {target key : Text} {f : BucketBackup → BucketBackup}
    (h : Keeping content target w₀ w) (hdb : w'.db = w.db.modifyBucketBackup target key f)
    (hf : ∀ b, (f b).manifestKey = b.manifestKey ∧ (f b).archiveKey = b.archiveKey ∧
      (f b).dbName = b.dbName ∧ (f b).installationID = b.installationID)
    (hattested : ∀ b, Attested content target b → Attested content target (f b)) :
    Keeping content target w₀ w' := by
  have hold : ∀ r ∈ w'.db.bucketBackups, _ := fun r hr =>
    Database.mem_modifyBucketBackup.mp (hdb ▸ hr)
  have hprefixes : w'.db.prefixes = w.db.prefixes := by rw [hdb]; rfl
  refine ⟨⟨?_, ?_, ?_, ?_⟩, ?_, ?_⟩
  · intro r hr howner
    rcases hold r hr with ⟨b, hb, -, rfl⟩ | ⟨hr', -⟩
    · exact hattested b (h.coherent.attested _ hb ((hf b).2.2.2 ▸ howner))
    · exact h.coherent.attested r hr' howner
  · intro r hr
    rcases hold r hr with ⟨b, hb, -, rfl⟩ | ⟨hr', -⟩
    · obtain ⟨directory, hm, ha⟩ := h.coherent.placed _ hb
      exact ⟨directory, (hf b).1.trans hm, (hf b).2.1.trans ha⟩
    · exact h.coherent.placed r hr'
  · have hsame : w'.db.bucketBackups.map Database.rowKey =
        w.db.bucketBackups.map Database.rowKey := by
      rw [hdb]
      apply Table.map_key_modify
      intro r _ hkey
      exact (congrArg (Prod.mk r.1) (hf r.2).1).trans hkey
    rw [hsame]
    exact h.coherent.keys
  · intro r hr
    rw [hprefixes]
    rcases hold r hr with ⟨b, hb, -, rfl⟩ | ⟨hr', -⟩
    · obtain ⟨p, hp, hfolder⟩ := h.coherent.folders _ hb
      exact ⟨p, hp, hfolder.trans (hf b).2.2.1.symm⟩
    · exact h.coherent.folders r hr'
  · intro r hr
    rw [← h.elsewhere.rows r hr, hdb, Database.mem_modifyBucketBackup]
    constructor
    · intro hor
      rcases hor with ⟨b, -, -, rfl⟩ | ⟨hr', -⟩
      · exact absurd rfl hr
      · exact hr'
    · exact fun hr' => Or.inr ⟨hr', fun hkey => hr (Prod.mk.inj hkey).1⟩
  · rw [hprefixes]
    exact h.elsewhere.counts

end

/-! ### Deleting -/

section
variable {content : Holdings} {s : Settings} {w₀ v w : World} {b : BucketBackup}

/-- The rule for a statement that changes the view of the store. -/
theorem change_among {q : StoreCall Unit} {f : Database → Database}
    (hq : ∀ db, q.run db = StoreCall.write f db)
    (hkeep : ∀ w₁ w₂, Undisturbed w w₁ → Thinning content s w₀ v w₁ → w₂.db = f w₁.db →
      Grew Event.Silent w₁ w₂ → Thinning content s w₀ v w₂) :
    Safe (among content (Thinning content s w₀ v)) (store q) (fun _ _ => True) w := by
  apply among_ask
  intro w₁ r w₂ hu hi ⟨⟨hlog, heff⟩, _⟩
  refine ⟨?_, fun _ _ _ => trivial⟩
  have hgrew : Grew Event.Silent w₁ w₂ := ⟨_, hlog, silent_observeStore q w₁.db r⟩
  rcases heff with ⟨a, hrun, -⟩ | ⟨-, hdb⟩
  · exact hkeep w₁ w₂ hu hi (StoreCall.write_eq_ok.mp ((hq _).symm.trans hrun)) hgrew
  · exact thinning_lasts w₁ w₂ ⟨by rw [hdb], by rw [hdb], hgrew⟩ hi

theorem mark_among {key : Text} {now : Instant} :
    Safe (among content (Thinning content s w₀ v)) (store (.markBackupDeleting s.target key now))
      (fun _ _ => True) w := by
  apply change_among (fun _ => rfl)
  intro w₁ w₂ _ hi hdb hgrew
  refine ⟨hi.keeping.modify hdb (fun _ => ⟨rfl, rfl, rfl, rfl⟩) (fun b hb => hb.marked _), ?_⟩
  apply hi.pruned.change (by rw [hdb]; rfl) hgrew
  · intro b hb
    rw [hdb] at hb
    rcases Database.mem_modifyBucketBackup.mp hb with ⟨b₁, hb₁, -, hrow⟩ | ⟨hb₁, -⟩
    · rw [(Prod.mk.inj hrow).2]
      exact Or.inl ⟨b₁, hb₁, rfl⟩
    · exact Or.inl ⟨b, hb₁, rfl⟩
  · intro b₁ hb₁
    left
    rw [hdb]
    by_cases hkey : b₁.manifestKey = key
    · exact ⟨_, Database.mem_modifyBucketBackup.mpr (Or.inl ⟨b₁, hb₁, hkey, rfl⟩), rfl⟩
    · refine ⟨b₁, Database.mem_modifyBucketBackup.mpr (Or.inr ⟨hb₁, fun h => ?_⟩), rfl⟩
      exact hkey (Prod.mk.inj h).2

/-- Once its manifest is removed, a row becomes archive-only. -/
theorem archiveOnly_among {key : Text} (hgone : .removed s key true ∈ thisPass w.log) :
    Safe (among content (Thinning content s w₀ v)) (store (.markBackupArchiveOnly s.target key))
      (fun _ _ => True) w := by
  apply change_among (fun _ => rfl)
  intro w₁ w₂ hu hi hdb hgrew
  have hgone₂ : .removed s key true ∈ thisPass w₂.log :=
    hgrew.thisPass Event.Silent.not_began (hu.log.symm ▸ hgone)
  have hattested : ∀ b, Attested content s.target b →
      Attested content s.target { b with state := .archiveOnly } := by
    intro b ⟨hsize, m, hm, hcheck, hb⟩
    exact ⟨hsize, m, hm, hcheck,
      congrArg (fun b : BucketBackup => { b with state := .archiveOnly }) hb⟩
  refine ⟨hi.keeping.modify hdb (fun _ => ⟨rfl, rfl, rfl, rfl⟩) hattested, ?_⟩
  apply hi.pruned.change (by rw [hdb]; rfl) hgrew
  · intro b hb
    rw [hdb] at hb
    rcases Database.mem_modifyBucketBackup.mp hb with ⟨b₁, -, hkey, hrow⟩ | ⟨hb₁, -⟩
    · rw [(Prod.mk.inj hrow).2]
      exact Or.inr ⟨Or.inl (hkey.symm ▸ hgone₂), nofun⟩
    · exact Or.inl ⟨b, hb₁, rfl⟩
  · intro b₁ hb₁
    by_cases hkey : b₁.manifestKey = key
    · exact Or.inr (Or.inl (hkey.symm ▸ hgone₂))
    · refine Or.inl ⟨b₁, ?_, rfl⟩
      rw [hdb]
      exact Database.mem_modifyBucketBackup.mpr
        (Or.inr ⟨hb₁, fun h => hkey (Prod.mk.inj h).2⟩)

/-- Once its archive is removed, a row goes. -/
theorem forget_among (hplaced : b.Placed) (hgone : .removed s b.archiveKey true ∈ thisPass w.log) :
    Safe (among content (Thinning content s w₀ v))
      (store (.forgetBucketBackup s.target b.manifestKey)) (fun _ _ => True) w := by
  apply change_among (fun _ => rfl)
  intro w₁ w₂ hu hi hdb hgrew
  have hgone₂ : .removed s b.archiveKey true ∈ thisPass w₂.log :=
    hgrew.thisPass Event.Silent.not_began (hu.log.symm ▸ hgone)
  refine ⟨hi.keeping.forget hdb, ?_⟩
  apply hi.pruned.change (by rw [hdb]; rfl) hgrew
  · intro b' hb'
    rw [hdb] at hb'
    exact Or.inl ⟨b', (Table.mem_delete.mp hb').1, rfl⟩
  · intro b₁ hb₁
    by_cases hkey : b₁.manifestKey = b.manifestKey
    · -- the row under this key is of the same directory
      have harchive := (hi.keeping.coherent.placed _ hb₁).archiveKey_eq hplaced hkey
      exact Or.inr (Or.inr (harchive.symm ▸ hgone₂))
    · refine Or.inl ⟨b₁, ?_, rfl⟩
      rw [hdb]
      exact Table.mem_delete.mpr ⟨hb₁, fun h => hkey (Prod.mk.inj h).2⟩

theorem remove_among {I : World → Prop} (hI : Lasts I) {key : Text} :
    Safe (among content I) (remove s key) (fun r w' => r = .ok () →
      .removed s key true ∈ thisPass w'.log) w := by
  apply (among_silently hI (silently_bucket (by simp [observeBucket, Event.Silent]))).mono
  rintro r w' ⟨htold, _⟩ hr
  obtain ⟨db, db', -, -, -, hlog⟩ := htold.answer
  rw [hlog, hr]
  simp [observe, observeBucket, thisPass, Event.IsBegan, Except.isOk, Except.toBool]

/-- A step followed by one that has nothing left to show. -/
theorem among_then {I : World → Prop} {α β : Type} {x : Go α} {f : α → Go β}
    (h : Safe (among content I) x (fun r w₁ => ∀ a, r = .ok a →
      Safe (among content I) (f a) (fun _ _ => True) w₁) w) :
    Safe (among content I) (x.bind f) (fun _ _ => True) w := by
  apply Safe.bindAction
  apply h.mono
  intro r w₁ hf
  cases r with
  | ok a => exact hf a rfl
  | error e => exact Safe.ret (fun _ _ _ => trivial)

/-- A loop over rows of which each step keeps the invariant. -/
theorem among_each {I : World → Prop} {β : Type} {f : β → Go Unit} {bs : List β}
    (h : ∀ b ∈ bs, ∀ w, Safe (among content I) (f b) (fun _ _ => True) w) :
    Safe (among content I) (Action.forEach f bs) (fun _ _ => True) w := by
  apply Safe.forEach (fun rest _ => ∀ b ∈ rest, b ∈ bs)
  · intro b rest w₁ hrest
    apply (h b (hrest b List.mem_cons_self) w₁).mono
    intro r w₂ _
    cases r with
    | ok _ => exact fun b' hb' => hrest b' (List.mem_cons_of_mem b hb')
    | error e => exact Safe.ret (fun _ _ _ => trivial)
  · exact fun _ _ => Safe.ret (fun _ _ _ => trivial)
  · exact fun _ hb => hb

theorem finishDelete_among (hplaced : b.Placed) :
    Safe (among content (Thinning content s w₀ v)) (finishDelete s s.target b)
      (fun _ _ => True) w := by
  apply among_then
  apply (remove_among thinning_lasts).mono
  intro r w₁ hgone u hu
  apply among_then
  apply (forget_among hplaced (hgone hu)).mono
  intro r w₂ _ _ _
  exact (among_write thinning_lasts (f := (·.deleteLocalBackupRow s.target b.manifestKey))
    (fun _ => rfl) (fun _ => ⟨rfl, rfl⟩)).mono (fun _ _ _ => trivial)

/-- The manifest the client returns is the stored one. -/
theorem decodeManifest_stored {key : Text} {c : Content} {m : Manifest}
    (h : s.decodeManifest key c = .ok m) :
    ∃ m₀, c.manifest = some m₀ ∧ m = { m₀ with manifestKey := key } := by
  unfold Settings.decodeManifest at h
  split at h
  · cases h
  · split at h
    · cases h
    · split at h
      · cases h
      · next m₀ hm₀ =>
        split at h
        · exact ⟨m₀, hm₀, (Except.ok.inj h).symm⟩
        · cases h

/-- The manifest of an attested row of ours is found to be ours. -/
theorem Attested.owned {installationID : String} {m : Manifest}
    (h : Attested content s.target b) (howner : b.installationID = installationID)
    (hread : s.decodeManifest b.manifestKey (content s.target b.manifestKey) = .ok m) :
    ownedManifest installationID b m = true := by
  obtain ⟨-, m₀, hm₀, hcheck, hb⟩ := h
  obtain ⟨m₁, hm₁, rfl⟩ := decodeManifest_stored hread
  obtain rfl : m₀ = m₁ := Option.some.inj (hm₀.symm.trans hm₁)
  have hinst : b.installationID = m₀.installationID := congrArg BucketBackup.installationID hb
  have hproject : b.projectID = m₀.projectID := congrArg BucketBackup.projectID hb
  exact ownedManifest_eq_true.mpr ⟨hcheck, hinst.symm.trans howner, hproject.symm⟩

theorem deleteBackup_among {installationID : String} (hplaced : b.Placed)
    (hattested : Attested content s.target b) (howner : b.installationID = installationID) :
    Safe (among content (Thinning content s w₀ v)) (deleteBackup s installationID s.target b)
      (fun _ _ => True) w := by
  apply among_then
  apply (readManifest_among thinning_lasts).mono
  intro r w₁ ⟨_, hr⟩ m hm
  rw [hattested.owned howner (hr.symm.trans hm)]
  simp only [Bool.not_true, Bool.false_eq_true, if_false]
  apply among_then
  apply (among_clock thinning_lasts).mono
  intro r w₂ _ now _
  apply among_then
  apply mark_among.mono
  intro r w₃ _ _ _
  apply among_then
  apply (remove_among thinning_lasts).mono
  intro r w₄ hgone u hu
  apply among_then
  apply (archiveOnly_among (hgone hu)).mono
  intro r w₅ _ _ _
  exact finishDelete_among hplaced

theorem cleanAbandonedUploads_among {backups : List BucketBackup}
    (hplaced : ∀ b ∈ backups, b.Placed) :
    Safe (among content (Thinning content s w₀ v)) (cleanAbandonedUploads s s.target backups)
      (fun _ _ => True) w := by
  apply among_then
  apply (among_clock thinning_lasts).mono
  intro r w₁ _ now _
  apply among_each
  intro b hb w₂
  have hplaced := hplaced b (List.mem_filter.mp hb).1
  apply among_then
  apply (among_read thinning_lasts (fun _ => rfl)).mono
  intro r w₃ _ ours _
  split
  · apply among_then
    apply (remove_among thinning_lasts).mono
    intro r w₄ hgone u hu
    exact forget_among hplaced (hgone hu)
  · exact Safe.ret (fun _ _ _ => trivial)

end

/-! ### Retention -/

section
variable {content : Holdings} {s : Settings} {w₀ v w : World} {installationID : String}

/-- In a folder that is not blocked every complete backup is ours. -/
theorem owner_of_not_blocked {backups : List BucketBackup} {b : BucketBackup}
    (h : ¬ blockedByForeignContent backups installationID = true) (hb : b ∈ backups)
    (hstate : b.state = .complete) : b.installationID = installationID := by
  by_contra hne
  apply h
  refine List.any_eq_true.mpr ⟨b, hb, ?_⟩
  simp [hstate, hne]

theorem retainDatabase_among {d : Text} {policy : BackupPolicy} :
    Safe (among content (Thinning content s w₀ v))
      (retainDatabase s installationID s.target d policy) (fun _ _ => True) w := by
  apply among_then
  apply (among_read thinning_lasts (fun _ => rfl)).mono
  intro r w₁ ⟨hstill, hi, hrows⟩ backups hr
  have hmem : ∀ b ∈ backups, (s.target, b) ∈ w₁.db.bucketBackups := by
    obtain ⟨db, hview, -, rfl⟩ := hrows backups hr
    intro b hb
    rw [hstill.view, ← hview]
    exact (Database.mem_prefixBackups.mp hb).1
  have hplaced : ∀ b ∈ backups, b.Placed := fun b hb => hi.keeping.coherent.placed _ (hmem b hb)
  apply among_then
  have hfinish : Safe (among content (Thinning content s w₀ v))
      (Action.forEach (finishDelete s s.target)
        (backups.filter (fun b => b.state = .archiveOnly && 0 < b.deleteStartedAt)))
      (fun _ _ => True) w₁ := by
    apply among_each
    intro b hb w₂
    exact finishDelete_among (hplaced b (List.mem_filter.mp hb).1)
  apply hfinish.mono
  intro r w₂ _ _ _
  by_cases hblocked : blockedByForeignContent backups installationID = true
  · rw [if_pos hblocked]
    exact Safe.ret (fun _ _ _ => trivial)
  · rw [if_neg hblocked]
    apply among_then
    apply (among_clock thinning_lasts).mono
    intro r w₃ _ now _
    apply among_then
    have hdelete : Safe (among content (Thinning content s w₀ v))
        (Action.forEach (deleteBackup s installationID s.target) (selectExpired backups policy now))
        (fun _ _ => True) w₃ := by
      apply among_each
      intro b hb w₄
      obtain ⟨hb, hstate⟩ := complete_of_mem_selectExpired hb
      exact deleteBackup_among (hplaced b hb) (hi.pruned.complete b (hmem b hb) hstate)
        (owner_of_not_blocked hblocked hb hstate)
    apply hdelete.mono
    intro r w₄ _ _ _
    exact cleanAbandonedUploads_among hplaced

theorem retainEach_among {policy : BackupPolicy} {databases : List Text} :
    Safe (among content (Thinning content s w₀ v)) (retainEach s installationID policy databases)
      (fun _ _ => True) w := by
  induction databases generalizing w with
  | nil => exact Safe.ret (fun _ _ _ => trivial)
  | cons d rest ih =>
    apply Safe.bind
    apply retainDatabase_among.mono
    intro _ w₁ _
    exact ih

theorem retain_among {databases : List Text} :
    Safe (among content (Thinning content s w₀ v)) (retain s installationID databases)
      (fun _ _ => True) w := by
  apply Safe.bind
  apply (among_silently thinning_lasts (silently_bucket (fun r e he => by
    cases r <;> simp_all [observeBucket, Event.Silent]))).mono
  intro r w₁ _
  cases r with
  | error e => exact Safe.ret (fun _ _ _ => trivial)
  | ok v =>
    by_cases hmay : mayRetain s v = true
    · simp only [hmay, if_true]
      apply Safe.bind
      apply Safe.bind
      apply (among_read thinning_lasts (fun _ => rfl)).mono
      intro r w₂ _
      cases r with
      | ok policy | error e => exact Safe.ret (fun _ _ _ => retainEach_among)
    · simp only [hmay]
      exact Safe.ret (fun _ _ _ => trivial)

theorem pruneHistory_among :
    Safe (among content (Thinning content s w₀ v)) pruneHistory (fun _ _ => True) w := by
  apply Safe.bind
  apply (among_silently thinning_lasts silently_now).mono
  intro now w₁ _
  apply Safe.bind
  apply (among_write thinning_lasts (f := (·.pruneJobs (now - 90 * 24 * hour)))
    (fun _ => rfl) (fun _ => ⟨rfl, rfl⟩)).mono
  intro r w₂ _
  exact Safe.ret (fun _ _ _ => trivial)

theorem afterReconcile_among {databases : List Text} :
    Safe (among content (Thinning content s w₀ v)) (afterReconcile s installationID databases)
      (fun _ _ => True) w := by
  apply Safe.bind
  apply (among_write thinning_lasts (f := (·.forgetLostLocalBackups s.target))
    (fun _ => rfl) (fun _ => ⟨rfl, rfl⟩)).mono
  intro r w₁ _
  apply Safe.bind
  apply (among_read thinning_lasts (fun _ => rfl)).mono
  intro on w₂ _
  split
  · apply Safe.bind
    apply retain_among.mono
    intro _ w₃ _
    exact pruneHistory_among
  · exact Safe.ret (fun _ _ _ => trivial)

end

/-! ### A pass -/

section
variable {content : Holdings} {s : Settings} {w₀ v w w' : World} {installationID : String}

/-- All that is listed is recorded, and nothing else is. -/
abbrev RecordedAsListed (content : Holdings) (s : Settings) (w : World) : Prop :=
  RecordedBut content s [] w

/-- In a view just recorded, complete rows say what their manifests say. -/
theorem RecordedBut.attested (h : RecordedAsListed content s v) {b : BucketBackup}
    (hb : (s.target, b) ∈ v.db.bucketBackups) (hstate : b.state = .complete) :
    Attested content s.target b := by
  have hd := h.rows b hb
  generalize hfolder : b.dbName = d at hd
  obtain ⟨b₀, hb₀, k, rfl⟩ := (h.done d hd List.not_mem_nil).rows.rows b hb hfolder
  rw [freshRows_eq] at hb₀
  obtain ⟨e, he, rfl⟩ := List.mem_map.mp hb₀
  exact (attested_freshRow (World.valid_of_mem_names hd) he (Or.inr hstate)).marked k

theorem RecordedBut.pruned (h : RecordedAsListed content s v) : Pruned content s v v :=
  ⟨rfl, rfl, fun b hb => Or.inl ⟨b, hb, rfl⟩, fun b hb => Or.inl ⟨b, hb, rfl⟩,
    fun _ hb hstate => h.attested hb hstate⟩

/-- The rows computed are those of the view just recorded. -/
theorem RecordedBut.mem_freshView (h : RecordedAsListed content s v) {b : BucketBackup} :
    b ∈ v.freshView content s ↔ ∃ r, (s.target, r) ∈ v.db.bucketBackups ∧ r.unmarked = b := by
  constructor
  · intro hb
    obtain ⟨d, hd, hb⟩ := List.mem_flatMap.mp hb
    rw [World.freshFolder, if_pos hd] at hb
    obtain ⟨k, hrow⟩ := (h.done d hd List.not_mem_nil).rows.there b hb
    obtain ⟨e, he, hrowOf⟩ := Table.exists_left (forall₂_freshRows _) hb
    refine ⟨_, hrow, ?_⟩
    show { b with deleteStartedAt := 0 } = b
    rw [← hrowOf.unmarked]
  · intro ⟨r, hr, hb⟩
    have hd := h.rows r hr
    obtain ⟨b₀, hb₀, k, heq⟩ := (h.done r.dbName hd List.not_mem_nil).rows.rows r hr rfl
    obtain ⟨e, he, hrowOf⟩ := Table.exists_left (forall₂_freshRows _) hb₀
    refine List.mem_flatMap.mpr ⟨r.dbName, hd, ?_⟩
    rw [World.freshFolder, if_pos hd]
    have hsame : r.unmarked = b₀ := by
      rw [heq]
      show { b₀ with deleteStartedAt := 0 } = b₀
      rw [← hrowOf.unmarked]
    rw [← hb, hsame]
    exact hb₀

/-- The view at the end of a pass, apart from what it removed. -/
theorem asFresh_of_thinning (h : RecordedAsListed content s v) (hthin : Thinning content s w₀ v w) :
    AsFresh content s w₀ w := by
  have hpruned := hthin.pruned
  have hnames : w.names s = v.names s := by rw [World.names, World.names, hpruned.heard]
  have hfolder : w.freshFolder content s = v.freshFolder content s := by
    funext d
    rw [World.freshFolder, World.freshFolder, hnames, hpruned.heard]
  have hview : w.freshView content s = v.freshView content s := by
    rw [World.freshView, World.freshView, hnames, hfolder]
  refine ⟨?_, hthin.keeping.coherent.keys, ?_, ?_, hthin.keeping.elsewhere.rows,
    hthin.keeping.elsewhere.counts⟩
  · intro b hkept
    rw [hview, h.mem_freshView]
    constructor
    · rintro ⟨r, hr, hb⟩
      rcases hpruned.rows r hr with ⟨r₀, hr₀, heq⟩ | hremoved
      · exact ⟨r₀, hr₀, heq.symm.trans hb⟩
      · exact absurd (hb ▸ hremoved) hkept
    · rintro ⟨r₀, hr₀, hb⟩
      rcases hpruned.there r₀ hr₀ with ⟨r, hr, heq⟩ | hremoved
      · exact ⟨r, hr, heq.trans hb⟩
      · exact absurd (hb ▸ hremoved) hkept
  · intro p hp
    rw [hpruned.prefixes] at hp
    rw [hfolder, World.freshFolder]
    split
    · next hd => exact (h.done p.dbName hd List.not_mem_nil).counts p hp rfl
    · next hd => exact h.gone p hp hd
  · intro d hd
    rw [hnames] at hd
    rw [hpruned.prefixes]
    exact (h.done d hd List.not_mem_nil).counted

theorem setTargetReconciled_among {I : World → Prop} (hI : Lasts I) {target : Text} {now : Instant}
    {lastError : String} :
    Safe (among content I) (setTargetReconciled target now lastError)
      (fun _ w' => Still w w') w := by
  apply Safe.bindAction
  apply (among_write hI (f := (·.ensureTarget target)) (fun _ => rfl) (fun _ => ⟨rfl, rfl⟩)).mono
  intro r w₁ hstill₁
  cases r with
  | error e => exact Safe.ret (fun w' hu _ => hstill₁.trans hu.still)
  | ok u =>
    apply (among_write hI (f := (·.recordReconciled target now lastError))
      (fun _ => rfl) (fun _ => ⟨rfl, rfl⟩)).mono
    intro r w₂ hstill₂
    exact hstill₁.trans hstill₂

theorem abandonPass_among {I : World → Prop} (hI : Lasts I) {target : Text} {e : Err} :
    Safe (among content I) (abandonPass target e) (fun r _ => r ≠ .ok ()) w := by
  apply Safe.bindAction
  apply (among_clock hI).mono
  intro r w₁ ⟨_, now, hnow⟩
  subst hnow
  apply Safe.bindAttempt
  apply (setTargetReconciled_among hI).mono
  intro r w₂ _
  exact Safe.ret (fun _ _ _ h => nomatch h)

theorem listDatabases_among {target : Text} :
    Safe (among content (Keeping content target w₀)) (listDatabases s) (fun r w' =>
      ∀ names, r = .ok names → names = w'.names s) w := by
  apply Safe.bindAction
  apply list_among.mono
  intro r w₁ ⟨_, _, hlog⟩
  cases r with
  | error e => exact Safe.ret (fun _ _ _ names h => nomatch h)
  | ok objects =>
    apply Safe.ret
    intro w' hu _ names hnames
    have hstill : w'.names s = w₁.names s := hu.still.names
    rw [hstill, World.names, World.heard_listed hlog, if_pos rfl]
    exact (Except.ok.inj hnames).symm

theorem reconcile_among :
    Safe (among content (Keeping content s.target w₀)) (reconcile s installationID)
      (fun r w' => r = .ok () → AsFresh content s w₀ w') w := by
  apply Safe.bindAction
  apply (among_write keeping_lasts (f := (·.activateStorageTarget _)) (fun _ => rfl)
    (fun _ => ⟨rfl, rfl⟩)).mono
  intro r w₁ _
  cases r with
  | error e => exact Safe.ret (fun _ _ _ h => by cases h)
  | ok u =>
    apply Safe.bindAttempt
    apply listDatabases_among.mono
    intro r w₂ hlist
    cases r with
    | error e => exact (abandonPass_among keeping_lasts).mono (fun _ _ hne h => absurd h hne)
    | ok databases =>
      obtain rfl := hlist databases rfl
      apply Safe.bindAction
      apply (among_clock keeping_lasts).mono
      rintro r w₃ ⟨hstill₃, now, hnow⟩
      subst hnow
      apply Safe.bindAction
      apply tombstonePrefixes_among.mono
      intro r w₄ hempty
      cases r with
      | error e => exact Safe.ret (fun _ _ _ h => by cases h)
      | ok u =>
        obtain ⟨hleft, hheard⟩ := hempty rfl
        have hnames : w₂.names s = w₄.names s := by
          rw [World.names, World.names, hheard, hstill₃.grew.heard]
        rw [hnames] at hleft ⊢
        apply Safe.bindLift
        apply reconcilePrefixes_among.mono
        intro failure w₅ hrecorded
        cases failure with
        | some e => exact (abandonPass_among keeping_lasts).mono (fun _ _ hne h => absurd h hne)
        | none =>
          have hview₅ := (hrecorded rfl).2 (fun _ hd => hd) hleft.recordedBut
          apply Safe.bindAction
          apply (among_clock keeping_lasts).mono
          rintro r w₆ ⟨hstill₆, now, hnow⟩
          subst hnow
          apply Safe.bindAction
          apply (setTargetReconciled_among keeping_lasts).mono
          intro r w₇ hstill₇
          cases r with
          | error e => exact Safe.ret (fun _ _ _ h => by cases h)
          | ok u =>
            -- from here on rows only go for what is removed
            apply Safe.of_later
            intro v hu hi
            have hview : RecordedAsListed content s v :=
              hview₅.still ((hstill₆.trans hstill₇).trans hu.still)
            have hthin : Thinning content s w₀ v v := ⟨hi, hview.pruned⟩
            have hlast : ∀ w w' : World, Undisturbed w w' → Thinning content s w₀ v w →
                Thinning content s w₀ v w' := fun w w' hu h => thinning_lasts w w' hu.still h
            apply Safe.narrow (fun _ h => h.keeping) hlast hthin
            apply Safe.lift
            apply afterReconcile_among.with_inv.mono
            rintro _ w₈ ⟨_, _⟩
            exact Safe.ret (fun w' _ hthin' _ => asFresh_of_thinning hview hthin')

/-- What a pass from a coherent view keeps, and what it leaves when it succeeds. -/
theorem Coherent.pass (h : Coherent content w) {r : Option (Except Err Unit)}
    (run : Trace (unchanging content) Undisturbed (reconcile s installationID) (w.begin s) r w') :
    Coherent content w' ∧ (r = some (.ok ()) → AsFresh content s w w') := by
  have hstart : Keeping content s.target w (w.begin s) :=
    ⟨h.congr rfl rfl, fun _ _ => Iff.rfl, fun _ _ => Iff.rfl⟩
  have hsafe : Safe (among content (Keeping content s.target w)) (reconcile s installationID)
      (fun r w' => r = .ok () → AsFresh content s w w') (w.begin s) := reconcile_among
  obtain ⟨hinv, hend⟩ := Safe.trace (S := among content (Keeping content s.target w))
    (fun _ _ hu => hu) (fun _ _ hu hi => hi.congr hu.view hu.prefixes) run hstart hsafe
  exact ⟨hinv.coherent, fun hr => hend _ hr rfl⟩

theorem Arrived.coherent (h : Arrived content w) : Coherent content w := by
  induction h with
  | start w rows folders =>
    refine ⟨?_, ?_, ?_, ?_⟩ <;> rw [rows]
    · exact fun r hr => nomatch hr
    · exact fun r hr => nomatch hr
    · exact List.nodup_nil
    · exact fun r hr => nomatch hr
  | meanwhile _ step ih => exact ih.congr step.view step.prefixes
  | pass s installationID _ run ih => exact (ih.pass run).1

end

/-- Where each manifest key of a store only ever holds one content and reads
    succeed, every pass that returns without error leaves the rows and counts
    that a pass with nothing recorded would compute from the same listings by
    reading every manifest, apart from the backups and archives that it removed.
    This holds after every history of passes over whatever stores, failed and
    interrupted ones included, and of whatever listings; the rows of other stores
    stay as they are. -/
theorem recorded_as_if_read {content : Holdings} {s : Settings} {installationID : String}
    {w w' : World} (h : Arrived content w)
    (run : Trace (unchanging content) Undisturbed (reconcile s installationID) (w.begin s)
      (some (.ok ())) w') : AsFresh content s w w' :=
  (h.coherent.pass run).2 rfl

theorem readOnly_unchanging (content : Holdings) ⦃β : Type⦄ (w : World) (c : Call β) :
    unchanging content w c (readOnly content w c).1 (readOnly content w c).2 := by
  cases c with
  | bucket s q =>
    cases q with
    | readBytes key => exact ⟨⟨rfl, rfl⟩, rfl⟩
    | _ => exact ⟨exec_adversary .none w (.bucket s _), trivial⟩
  | _ => exact ⟨exec_adversary .none w _, trivial⟩

/-- A pass in which every read gives what the key holds, and no call fails. -/
def steadyPass (content : Holdings) (s : Settings) (installationID : String) (w : World) :
    Except Err Unit × World :=
  (reconcile s installationID).run (readOnly content) (w.begin s)

theorem steadyPass_trace (content : Holdings) (s : Settings) (installationID : String) (w : World) :
    Trace (unchanging content) Undisturbed (reconcile s installationID) (w.begin s)
      (some (steadyPass content s installationID w).1) (steadyPass content s installationID w).2 :=
  Prog.run_trace (readOnly_unchanging content) _ _

/-- What the two backups hold. -/
def twoManifests : Holdings := fun _ key => (twoBackups.content key).getD ⟨0, none⟩

/-- The first of two passes removes the older backup; the second, which knows
    the owner of the other, leaves the view it would compute with nothing known. -/
theorem recorded_as_if_read_two_backups :
    let w := (steadyPass twoManifests vault "home" twoBackups).2
    let w' := (steadyPass twoManifests vault "home" w).2
    w.db.bucketBackups.length = 1 ∧ (w'.freshView twoManifests vault).length = 1 ∧
      AsFresh twoManifests vault w w' := by
  intro w w'
  have hfirst : Arrived twoManifests w :=
    .pass vault "home" (.start twoBackups rfl rfl) (steadyPass_trace _ _ _ _)
  have hok : (steadyPass twoManifests vault "home" w).1 = .ok () := by decide +kernel
  have hrun : Trace (unchanging twoManifests) Undisturbed (reconcile vault "home") (w.begin vault)
      (some (.ok ())) w' := hok ▸ steadyPass_trace _ _ _ _
  exact ⟨by decide +kernel, by decide +kernel, recorded_as_if_read hfirst hrun⟩

end Pgfy
