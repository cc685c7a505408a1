import Pgfy.Jobs.World

/-! # Why a key may be removed

    The reasons for which retention may remove a key, each read off the log
    before the removal, and the invariant from which they follow: the
    provenance of every delete marker and of every row that is recorded as
    archive-only.
-/

namespace Pgfy

open Calendar Storage Program

/-! ### Reading the log -/

/-- The manifest of `b` has just been read, passes `checkManifest`, and names
    this installation and the project of the row. -/
def Confirmed (installationID : String) (b : BucketBackup) (log : List Event) : Prop :=
  ∃ now s c m rest, log = .time now :: .read s b.manifestKey (.ok c) :: rest ∧
    s.decodeManifest b.manifestKey c = .ok m ∧ checkManifest m b.entry = .ok () ∧
    m.installationID = installationID ∧ m.projectID = b.projectID

/-- A row read in the pass under way for which deletion has just been
    confirmed and marked. -/
def Starting (installationID : String) (target : Text) (b : BucketBackup) (log : List Event) :
    Prop :=
  ∃ before, log = .marked target b.manifestKey :: before ∧ Confirmed installationID b before ∧
    ∃ dbName bs, .rows target dbName bs ∈ thisPass before ∧ b ∈ bs

/-- The manifest of a row has been removed in the pass under way, and the
    removal returned success. -/
def ManifestGone (installationID : String) (s : Settings) (b : BucketBackup) (log : List Event) :
    Prop :=
  ∃ since before, log = since ++ .removed s b.manifestKey true :: before ∧
    (∀ e ∈ since, ¬ e.IsBegan) ∧ Starting installationID s.target b before

/-- A listing of the pass under way shows the folder of a row as archive-only. -/
def ShownArchiveOnly (b : BucketBackup) (log : List Event) : Prop :=
  ∃ root objects, .listed root (.ok objects) ∈ thisPass log ∧
    ∃ e ∈ entriesFrom root objects, e.state = .archiveOnly ∧ e.manifestKey = b.manifestKey ∧
      e.archiveKey = b.archiveKey

/-- The delete marker under a key was set after a confirmed read, and no listing
    recorded since has shown anything but an archive there. -/
def MarkedSince (installationID : String) (target key : Text) (log : List Event) : Prop :=
  ∃ since before b, log = since ++ .marked target key :: before ∧ b.manifestKey = key ∧
    Confirmed installationID b before ∧
    ∀ dbName bs, .recorded target dbName bs ∈ since → ∀ r ∈ bs, r.manifestKey = key →
      r.state = .archiveOnly

/-- A failed or interrupted backup job that finished more than 24 hours ago is
    recorded for this directory of this store. -/
def Abandoned (target directory : Text) (log : List Event) : Prop :=
  ∃ now jobs rest, log = .claimed target directory (now - 24 * hour) jobs :: rest ∧
    .time now ∈ thisPass rest ∧
    ∃ j ∈ jobs, j.kind = .backup ∧ j.targetStorage = target ∧ j.targetKey = directory ∧
      (j.state = .failed ∨ j.state = .interrupted) ∧ j.finishedAt < unix (now - 24 * hour)

/-- The four reasons for which a key may be removed. -/
inductive Justified (installationID : String) (s : Settings) (log : List Event) : Text → Prop
  | manifest (b : BucketBackup) (h : Starting installationID s.target b log) :
      Justified installationID s log b.manifestKey
  | archive (b : BucketBackup) (h : ManifestGone installationID s b log) :
      Justified installationID s log b.archiveKey
  | halfDeleted (b : BucketBackup) (shown : ShownArchiveOnly b log)
      (marked : MarkedSince installationID s.target b.manifestKey log) :
      Justified installationID s log b.archiveKey
  | abandoned (b : BucketBackup) (directory : Text)
      (place : b.manifestKey = directory ++ '/' :: manifestFile) (shown : ShownArchiveOnly b log)
      (h : Abandoned s.target directory log) : Justified installationID s log b.archiveKey

/-- The pass under way may delete: it is over this store, none of its listings
    failed, it is recorded as complete, and the bucket is protected. -/
structure Cleared (s : Settings) (log : List Event) : Prop where
  store : passStore log = some s
  listed : ∀ root e, .listed root (.error e) ∉ thisPass log
  complete : .reconciled s.target ∈ thisPass log
  protected_ : ∃ v, .protection v ∈ thisPass log ∧
    (v = .enabled ∨ (v = .unsupported ∧ s.bucketProtection = .acknowledged))

/-! ### Runs -/

/-- The states that passes of an installation reach, from an empty view on.
    A pass may stop anywhere, as one whose process dies does. -/
inductive Reached (installationID : String) : World → Prop
  | start (w : World) (rows : w.db.bucketBackups = []) (log : w.log = []) :
      Reached installationID w
  | outside {w w' : World} (h : Reached installationID w) (step : Outside w w') :
      Reached installationID w'
  | pass {w w' : World} (s : Settings) {r : Option (Except Err Unit)}
      (h : Reached installationID w)
      (run : Trace adversary Outside (reconcile s installationID) (w.begin s) r w') :
      Reached installationID w'

/-! ### How the log grows -/

/-- Events that neither end a pass nor record a folder nor remove a key. -/
def Event.Quiet : Event → Prop
  | .began _ => False
  | .recorded .. => False
  | .removed .. => False
  | _ => True

/-- Events of the part of a pass that deletes. -/
def Event.Retaining : Event → Prop
  | .began _ => False
  | .recorded .. => False
  | .listed .. => False
  | _ => True

theorem Event.Quiet.not_began {e : Event} (h : e.Quiet) : ¬ e.IsBegan := by
  cases e <;> simp_all [Event.Quiet, Event.IsBegan]

theorem Event.Retaining.not_began {e : Event} (h : e.Retaining) : ¬ e.IsBegan := by
  cases e <;> simp_all [Event.Retaining, Event.IsBegan]

theorem ShownArchiveOnly.append {b : BucketBackup} {new log : List Event}
    (hnew : ∀ e ∈ new, ¬ e.IsBegan) (h : ShownArchiveOnly b log) :
    ShownArchiveOnly b (new ++ log) := by
  obtain ⟨root, objects, hmem, hentry⟩ := h
  refine ⟨root, objects, ?_, hentry⟩
  rw [thisPass_append hnew]
  exact List.mem_append_right _ hmem

theorem ManifestGone.append {installationID : String} {s : Settings} {b : BucketBackup}
    {new log : List Event} (hnew : ∀ e ∈ new, ¬ e.IsBegan)
    (h : ManifestGone installationID s b log) : ManifestGone installationID s b (new ++ log) := by
  obtain ⟨since, before, hlog, hsince, hstart⟩ := h
  refine ⟨new ++ since, before, by rw [hlog, List.append_assoc], ?_, hstart⟩
  intro e he
  rcases List.mem_append.mp he with he | he
  · exact hnew e he
  · exact hsince e he

/-- A marker outlives what is recorded, as long as that is archive-only. -/
theorem MarkedSince.append {installationID : String} {target key : Text} {new log : List Event}
    (hnew : ∀ dbName bs, .recorded target dbName bs ∈ new → ∀ r ∈ bs, r.manifestKey = key →
      r.state = .archiveOnly)
    (h : MarkedSince installationID target key log) :
    MarkedSince installationID target key (new ++ log) := by
  obtain ⟨since, before, b, hlog, hb, hconf, hsince⟩ := h
  refine ⟨new ++ since, before, b, by rw [hlog, List.append_assoc], hb, hconf, ?_⟩
  intro dbName bs he
  rcases List.mem_append.mp he with he | he
  · exact hnew dbName bs he
  · exact hsince dbName bs he

theorem Cleared.append {s : Settings} {new log : List Event} (hnew : ∀ e ∈ new, e.Retaining)
    (h : Cleared s log) : Cleared s (new ++ log) := by
  have hbegan : ∀ e ∈ new, ¬ e.IsBegan := fun e he => (hnew e he).not_began
  have hpass : thisPass (new ++ log) = new ++ thisPass log := thisPass_append hbegan
  obtain ⟨v, hv, hprot⟩ := h.protected_
  refine ⟨?_, ?_, ?_, v, ?_, hprot⟩
  · rw [passStore_append hbegan]
    exact h.store
  · intro root e he
    rw [hpass] at he
    rcases List.mem_append.mp he with he | he
    · exact hnew _ he
    · exact h.listed root e he
  · rw [hpass]
    exact List.mem_append_right _ h.complete
  · rw [hpass]
    exact List.mem_append_right _ hv

/-! ### The invariant -/

/-- Every removal of a log is justified by what the log had before it. -/
def AllJustified (installationID : String) : List Event → Prop
  | [] => True
  | .removed s key _ :: log =>
    Cleared s log ∧ Justified installationID s log key ∧ AllJustified installationID log
  | _ :: log => AllJustified installationID log

theorem AllJustified.append {installationID : String} {new log : List Event}
    (hnew : ∀ e ∈ new, e.Quiet) (h : AllJustified installationID log) :
    AllJustified installationID (new ++ log) := by
  induction new with
  | nil => exact h
  | cons e new ih =>
    have hrest := ih (fun e' he' => hnew e' (List.mem_cons_of_mem e he'))
    cases e with
    | removed s key ok => exact (hnew _ List.mem_cons_self).elim
    | _ => exact hrest

theorem AllJustified.split {installationID : String} {later earlier : List Event} {s : Settings}
    {key : Text} {ok : Bool}
    (h : AllJustified installationID (later ++ .removed s key ok :: earlier)) :
    Cleared s earlier ∧ Justified installationID s earlier key := by
  induction later with
  | nil => exact ⟨h.1, h.2.1⟩
  | cons e later ih =>
    cases e with
    | removed s key ok => exact ih h.2.2
    | _ => exact ih h

/-- The folder of a row is known to hold no manifest: a listing of this pass
    shows it so, or this pass has removed it. -/
def NoManifest (installationID : String) (s : Settings) (b : BucketBackup) (log : List Event) :
    Prop :=
  ShownArchiveOnly b log ∨
    ∃ b', b'.manifestKey = b.manifestKey ∧ b'.archiveKey = b.archiveKey ∧
      ManifestGone installationID s b' log

theorem NoManifest.append {installationID : String} {s : Settings} {b : BucketBackup}
    {new log : List Event} (hnew : ∀ e ∈ new, ¬ e.IsBegan)
    (h : NoManifest installationID s b log) : NoManifest installationID s b (new ++ log) := by
  rcases h with h | ⟨b', hm, ha, h⟩
  · exact Or.inl (h.append hnew)
  · exact Or.inr ⟨b', hm, ha, h.append hnew⟩

/-- The invariant of all runs. -/
structure Sound (installationID : String) (w : World) : Prop where
  removals : AllJustified installationID w.log
  placed : ∀ r ∈ w.db.bucketBackups, r.2.Placed
  /-- every delete marker was set by a confirmed deletion and is still valid -/
  markers : ∀ r ∈ w.db.bucketBackups, r.2.deleteStartedAt ≠ 0 →
    MarkedSince installationID r.1 r.2.manifestKey w.log
  /-- once this pass has recorded a folder, its archive-only rows are known to be so -/
  shown : ∀ r ∈ w.db.bucketBackups, r.2.state = .archiveOnly →
    ∀ s, passStore w.log = some s → s.target = r.1 →
      ∀ bs, .recorded r.1 r.2.dbName bs ∈ thisPass w.log → NoManifest installationID s r.2 w.log

variable {installationID : String} {w w' : World}

/-- Nothing is lost when the log grows quietly and rows only go. -/
theorem Sound.extend {new : List Event} (h : Sound installationID w) (hlog : w'.log = new ++ w.log)
    (hnew : ∀ e ∈ new, e.Quiet) (hrows : ∀ r ∈ w'.db.bucketBackups, r ∈ w.db.bucketBackups) :
    Sound installationID w' := by
  have hbegan : ∀ e ∈ new, ¬ e.IsBegan := fun e he => (hnew e he).not_began
  refine ⟨?_, fun r hr => h.placed r (hrows r hr), ?_, ?_⟩
  · rw [hlog]
    exact h.removals.append hnew
  · intro r hr hd
    rw [hlog]
    apply (h.markers r (hrows r hr) hd).append
    intro dbName bs he
    exact (hnew _ he).elim
  · intro r hr hstate s hs ht bs hrec
    rw [hlog, passStore_append hbegan] at hs
    rw [hlog, thisPass_append hbegan] at hrec
    rw [hlog]
    apply NoManifest.append hbegan
    rcases List.mem_append.mp hrec with hrec | hrec
    · exact (hnew _ hrec).elim
    · exact h.shown r (hrows r hr) hstate s hs ht bs hrec

theorem Sound.outside (h : Sound installationID w) (step : Outside w w') :
    Sound installationID w' := by
  have hlog : w'.log = [] ++ w.log := step.1
  exact h.extend hlog (by simp) (fun r hr => step.2 ▸ hr)

/-- A justified removal keeps the invariant. -/
theorem Sound.remove {s : Settings} {key : Text} {ok : Bool} (h : Sound installationID w)
    (hlog : w'.log = .removed s key ok :: w.log)
    (hrows : w'.db.bucketBackups = w.db.bucketBackups) (hc : Cleared s w.log)
    (hj : Justified installationID s w.log key) : Sound installationID w' := by
  have hbegan : ∀ e ∈ [Event.removed s key ok], ¬ e.IsBegan := by simp [Event.IsBegan]
  have hlog' : w'.log = [Event.removed s key ok] ++ w.log := hlog
  refine ⟨?_, fun r hr => h.placed r (hrows ▸ hr), ?_, ?_⟩
  · rw [hlog]
    exact ⟨hc, hj, h.removals⟩
  · intro r hr hd
    rw [hlog']
    apply (h.markers r (hrows ▸ hr) hd).append
    intro dbName bs he
    simp at he
  · intro r hr hstate s hs ht bs hrec
    rw [hlog', passStore_append hbegan] at hs
    rw [hlog', thisPass_append hbegan] at hrec
    rw [hlog']
    apply NoManifest.append hbegan
    exact h.shown r (hrows ▸ hr) hstate s hs ht bs (by simpa using hrec)

/-- Setting a marker after a confirmed read keeps the invariant. -/
theorem Sound.mark {target : Text} {now : Instant} {b : BucketBackup}
    (h : Sound installationID w) (hlog : w'.log = .marked target b.manifestKey :: w.log)
    (hrows : w'.db = w.db.markBackupDeleting target b.manifestKey now)
    (hb : Confirmed installationID b w.log) : Sound installationID w' := by
  have hlog' : w'.log = [Event.marked target b.manifestKey] ++ w.log := hlog
  have hbegan : ∀ e ∈ [Event.marked target b.manifestKey], ¬ e.IsBegan := by
    simp [Event.IsBegan]
  have hold : ∀ r ∈ w'.db.bucketBackups, _ := fun r hr =>
    Database.mem_modifyBucketBackup.mp (hrows ▸ hr)
  refine ⟨?_, ?_, ?_, ?_⟩
  · rw [hlog]
    exact h.removals
  · intro r hr
    rcases hold r hr with ⟨b', hb', -, rfl⟩ | ⟨hr', -⟩
    · exact h.placed (target, b') hb'
    · exact h.placed r hr'
  · intro r hr hd
    rcases hold r hr with ⟨b', -, hkey, rfl⟩ | ⟨hr', -⟩
    · refine ⟨[], w.log, b, ?_, hkey.symm, hb, fun dbName bs he => absurd he List.not_mem_nil⟩
      show w'.log = .marked target b'.manifestKey :: w.log
      rw [hlog, hkey]
    · rw [hlog']
      apply (h.markers r hr' hd).append
      intro dbName bs he
      simp at he
  · intro r hr hstate s hs ht bs hrec
    rw [hlog', passStore_append hbegan] at hs
    rw [hlog', thisPass_append hbegan] at hrec
    rw [hlog']
    apply NoManifest.append hbegan
    have hrec' : .recorded r.1 r.2.dbName bs ∈ thisPass w.log := by simpa using hrec
    rcases hold r hr with ⟨b', hb', -, rfl⟩ | ⟨hr', -⟩
    · exact h.shown (target, b') hb' hstate s hs ht bs hrec'
    · exact h.shown r hr' hstate s hs ht bs hrec'

/-- A row becomes archive-only once its manifest is gone. -/
theorem Sound.archiveOnly {s : Settings} {b : BucketBackup} (h : Sound installationID w)
    (hlog : w'.log = w.log)
    (hrows : w'.db = w.db.markBackupArchiveOnly s.target b.manifestKey)
    (hstore : passStore w.log = some s) (hplaced : b.Placed)
    (hgone : ManifestGone installationID s b w.log) : Sound installationID w' := by
  have hold : ∀ r ∈ w'.db.bucketBackups, _ := fun r hr =>
    Database.mem_modifyBucketBackup.mp (hrows ▸ hr)
  refine ⟨hlog ▸ h.removals, ?_, ?_, ?_⟩
  · intro r hr
    rcases hold r hr with ⟨b', hb', -, rfl⟩ | ⟨hr', -⟩
    · exact h.placed (s.target, b') hb'
    · exact h.placed r hr'
  · intro r hr hd
    rw [hlog]
    rcases hold r hr with ⟨b', hb', -, rfl⟩ | ⟨hr', -⟩
    · exact h.markers (s.target, b') hb' hd
    · exact h.markers r hr' hd
  · intro r hr hstate s' hs ht bs hrec
    rw [hlog] at hs hrec ⊢
    obtain rfl : s' = s := Option.some.inj (hs.symm.trans hstore)
    rcases hold r hr with ⟨b', hb', hkey, rfl⟩ | ⟨hr', -⟩
    · exact Or.inr ⟨b, hkey.symm,
        hplaced.archiveKey_eq (h.placed (s'.target, b') hb') hkey.symm, hgone⟩
    · exact h.shown r hr' hstate s' hs ht bs hrec

/-- Recording a folder as a listing of this pass found it keeps the invariant. -/
theorem Sound.record {target : Text} {state : PrefixState} {bs : List BucketBackup} {now : Instant}
    (h : Sound installationID w) (hlog : w'.log = .recorded target state.dbName bs :: w.log)
    (hrows : w'.db = w.db.replacePrefix target state bs now)
    (hkeys : (bs.map BucketBackup.manifestKey).Nodup) (hplaced : ∀ b ∈ bs, b.Placed)
    (hshown : ∀ b ∈ bs, b.state = .archiveOnly → ShownArchiveOnly b w.log) :
    Sound installationID w' := by
  have hlog' : w'.log = [Event.recorded target state.dbName bs] ++ w.log := hlog
  have hbegan : ∀ e ∈ [Event.recorded target state.dbName bs], ¬ e.IsBegan := by
    simp [Event.IsBegan]
  have hold : ∀ r ∈ w'.db.bucketBackups, _ := fun r hr =>
    Database.mem_replaceRows
      (show r ∈ Database.replaceRows target state.dbName bs _ from hrows ▸ hr)
  refine ⟨?_, ?_, ?_, ?_⟩
  · rw [hlog]
    exact h.removals
  · intro r hr
    rcases hold r hr with ⟨b, hb, d, rfl, -⟩ | ⟨hr', -⟩
    · exact hplaced b hb
    · exact h.placed r hr'
  · intro r hr hd
    rw [hlog']
    rcases hold r hr with ⟨b, hb, d, rfl, hcarried⟩ | ⟨hr', -, hne⟩
    · -- a carried marker: the listing has this key once, as archive-only
      obtain ⟨hstate, old, hmem, hkey, hmark⟩ := hcarried hd
      obtain ⟨htarget, hmkey⟩ := Prod.mk.inj hkey
      have hmarked := h.markers old hmem (by rw [hmark]; exact hd)
      rw [htarget, hmkey] at hmarked
      apply hmarked.append
      intro dbName bs' he r' hr' hkey'
      obtain ⟨-, -, rfl⟩ := Event.recorded.inj (List.mem_singleton.mp he)
      rw [List.inj_on_of_nodup_map hkeys hr' hb hkey']
      exact hstate
    · -- a row of another folder: the listing does not have its key
      apply (h.markers r hr' hd).append
      intro dbName bs' he r' hr'' hkey'
      obtain ⟨htarget, -, rfl⟩ := Event.recorded.inj (List.mem_singleton.mp he)
      exact absurd (by rw [Database.rowKey, htarget, hkey']) (hne r' hr'')
  · intro r hr hstate s hs ht bs' hrec
    rw [hlog', passStore_append hbegan] at hs
    rw [hlog', thisPass_append hbegan] at hrec
    rw [hlog']
    apply NoManifest.append hbegan
    rcases hold r hr with ⟨b, hb, d, rfl, -⟩ | ⟨hr', hfolder, -⟩
    · exact Or.inl (hshown b hb hstate)
    · rcases List.mem_append.mp hrec with hrec | hrec
      · obtain ⟨htarget, hdb, -⟩ := Event.recorded.inj (List.mem_singleton.mp hrec)
        exact absurd ⟨htarget, hdb⟩ hfolder
      · exact h.shown r hr' hstate s hs ht bs' hrec

/-- The invariant holds at the beginning of a pass. -/
theorem Sound.begin (h : Sound installationID w) (s : Settings) :
    Sound installationID (w.begin s) := by
  refine ⟨h.removals, h.placed, ?_, ?_⟩
  · intro r hr hd
    have hnew : ∀ dbName bs, .recorded r.1 dbName bs ∈ [Event.began s] →
        ∀ b ∈ bs, b.manifestKey = r.2.manifestKey → b.state = .archiveOnly := by
      intro dbName bs he
      simp at he
    exact (h.markers r hr hd).append hnew
  · intro r hr hstate s' hs ht bs hrec
    have hnil : thisPass (w.begin s).log = [] := by simp [thisPass, World.begin, Event.IsBegan]
    rw [hnil] at hrec
    cases hrec

end Pgfy
