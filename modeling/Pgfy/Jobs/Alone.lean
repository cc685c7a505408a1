import Pgfy.Jobs.World
import Pgfy.Storage.Listing

/-! # A pass that has the bucket to itself

    The rules for the calls of a pass when nobody else writes to the bucket or
    to the tables of backups, and calls fail only as a given set of faults
    allows. What a call reads is then what the state holds, and what it writes
    is said exactly; an error always comes from a fault that was allowed. The
    invariant `I` to be kept is any that survives clock readings and other looks.
-/

namespace Pgfy

open Calendar Storage Program

/-! ### What matters of a state -/

/-- What the operator has set: the policy, and whether an update is under way. -/
abbrev Orders := BackupPolicy × Bool

/-- The bucket and the tables that a pass works on. -/
structure Core where
  objects : List (Text × Content)
  versioning : Versioning
  view : List (Text × BucketBackup)
  history : List Backup
  prefixes : List (Text × PrefixState)

namespace World

def core (w : World) : Core :=
  ⟨w.objects, w.versioning, w.db.bucketBackups, w.db.backups, w.db.prefixes⟩

def orders (w : World) : Orders := (w.db.policy, w.db.maintenance)

/-- The entries a complete listing of a folder has now. -/
def entries (w : World) (s : Settings) (d : Text) : List Entry :=
  entriesFrom (s.databaseRoot d) (w.listing (s.databaseRoot d) true)

/-- What reading the manifest under a key gives now. -/
def manifestAt (w : World) (s : Settings) (key : Text) : Except Err Manifest :=
  match w.content key with
  | some c => s.decodeManifest key c
  | none => .error .driver

section
variable {w w' : World}

theorem objects_of_core (h : w'.core = w.core) : w'.objects = w.objects := congrArg Core.objects h

theorem view_of_core (h : w'.core = w.core) : w'.db.bucketBackups = w.db.bucketBackups :=
  congrArg Core.view h

theorem history_of_core (h : w'.core = w.core) : w'.db.backups = w.db.backups :=
  congrArg Core.history h

theorem content_congr (h : w'.objects = w.objects) (key : Text) :
    w'.content key = w.content key := by
  rw [content, content, h]

theorem entries_congr (h : w'.objects = w.objects) (s : Settings) (d : Text) :
    w'.entries s d = w.entries s d := by
  simp only [entries, listing, h]

theorem manifestAt_congr (h : w'.objects = w.objects) (s : Settings) (key : Text) :
    w'.manifestAt s key = w.manifestAt s key := by
  rw [manifestAt, manifestAt, content_congr h]

theorem prefixBackups_congr (h : w'.db.bucketBackups = w.db.bucketBackups) (target d : Text) :
    w'.db.prefixBackups target d = w.db.prefixBackups target d := by
  rw [Database.prefixBackups, Database.prefixBackups, h]

end

end World

/-! ### Objects and entries -/

theorem World.content_isSome {w : World} {key : Text} :
    (w.content key).isSome = true ↔ ∃ c, (key, c) ∈ w.objects := by
  unfold World.content
  rw [Option.isSome_map]
  constructor
  · intro h
    obtain ⟨⟨k, c⟩, hfind⟩ := Option.isSome_iff_exists.mp h
    obtain ⟨hmem, hkey⟩ := Table.find_eq_some hfind
    obtain rfl : k = key := hkey
    exact ⟨c, hmem⟩
  · intro ⟨c, hmem⟩
    cases hfind : Table.find Prod.fst key w.objects with
    | some r => rfl
    | none => exact absurd rfl (Table.find_eq_none.mp hfind (key, c) hmem)

/-- A complete listing has the files that are stored. -/
theorem World.hasFile_iff {w : World} {root name file : Text} (hname : '/' ∉ name)
    (hfile : '/' ∉ file) :
    HasFile root (w.listing root true) name file ↔
      (w.content (root ++ name ++ '/' :: file)).isSome = true := by
  rw [World.content_isSome]
  unfold HasFile World.listing
  simp only [if_true]
  constructor
  · intro ⟨o, ho, hsplit⟩
    obtain ⟨⟨key, c⟩, hmem, rfl⟩ := List.mem_map.mp ho
    obtain ⟨hobj, hroot⟩ := List.mem_filter.mp hmem
    obtain ⟨rest, rfl⟩ := List.isPrefixOf_iff_prefix.mp hroot
    refine ⟨c, ?_⟩
    dsimp only at hsplit
    rw [Text.trimPrefix_append] at hsplit
    rw [List.append_assoc, ← (Text.split_eq_pair.mp hsplit).1]
    exact hobj
  · intro ⟨c, hmem⟩
    refine ⟨⟨root ++ name ++ '/' :: file, c.size⟩, ?_, ?_⟩
    · refine List.mem_map.mpr ⟨_, List.mem_filter.mpr ⟨hmem, ?_⟩, rfl⟩
      rw [List.append_assoc, List.isPrefixOf_iff_prefix]
      exact List.prefix_append _ _
    · dsimp only
      rw [List.append_assoc, Text.trimPrefix_append]
      exact Text.split_eq_pair.mpr ⟨rfl, hname, hfile⟩

/-- Both objects of the backup in a directory are there. -/
def World.Holds (w : World) (e : Entry) : Prop :=
  (w.content e.manifestKey).isSome = true ∧ (w.content e.archiveKey).isSome = true

theorem World.holds_of_complete {w : World} {s : Settings} {d : Text} {e : Entry}
    (he : e ∈ w.entries s d) (hstate : e.state = .complete) : w.Holds e := by
  obtain ⟨name, hname⟩ := entryOf_of_mem he
  have hfiles : ∀ file ∈ ({archiveFile, manifestFile} : Set Text),
      HasFile (s.databaseRoot d) (w.listing (s.databaseRoot d) true) name file := by
    rw [← (hname.complete.mp hstate).2]
    exact fun _ hfile => hfile
  have hm := hfiles manifestFile (by simp)
  have ha := hfiles archiveFile (by simp)
  constructor
  · rw [hname.manifestKey]
    exact (World.hasFile_iff hm.slash.1 hm.slash.2).mp hm
  · rw [hname.archiveKey]
    exact (World.hasFile_iff ha.slash.1 ha.slash.2).mp ha

/-- The manifest key of a directory with a proper name leads back to it. -/
theorem World.entryFor_entry {w : World} {s : Settings} {d : Text} {e : Entry}
    (hd : validDatabaseSegment d = true) (he : e ∈ w.entries s d) (hstate : e.state ≠ .damaged) :
    ∃ entry, s.entryFor e.manifestKey = .ok entry ∧
      ∀ m, checkManifest m entry = checkManifest m e := by
  obtain ⟨name, hname⟩ := entryOf_of_mem he
  obtain ⟨file, hfile⟩ := hname.nonempty
  have hkey : e.manifestKey = fileKey s d name manifestFile := hname.manifestKey
  have harchive : e.archiveKey = fileKey s d name archiveFile := hname.archiveKey
  rw [hkey]
  refine ⟨_, entryFor_fileKey s hd hfile.slash.1 (hname.parses hstate), fun m => ?_⟩
  exact checkManifest_congr hname.directory.symm hkey.symm harchive.symm

theorem World.content_without {w : World} {key k : Text} (h : k ≠ key) :
    (w.without key).content k = w.content k := by
  unfold World.content World.without
  rw [Table.find_delete_of_ne h]

/-- What others may do: anything that leaves the bucket and the tables of backups
    alone. Of what the operator has set, the part that `steady` looks at stays as
    well. -/
structure Quietly {γ : Type} (steady : Orders → γ) (w w' : World) : Prop where
  core : w'.core = w.core
  clock : w.clock ≤ w'.clock
  log : w'.log = w.log
  orders : steady w'.orders = steady w.orders

theorem Quietly.refl {γ : Type} (steady : Orders → γ) (w : World) : Quietly steady w w :=
  ⟨rfl, le_rfl, rfl, rfl⟩

theorem Quietly.trans {γ : Type} {steady : Orders → γ} {w₁ w₂ w₃ : World} (h : Quietly steady w₁ w₂)
    (h' : Quietly steady w₂ w₃) : Quietly steady w₁ w₃ :=
  ⟨h'.core.trans h.core, h.clock.trans h'.clock, h'.log.trans h.log,
    h'.orders.trans h.orders⟩

/-- Events that tell of no change. -/
def Event.Plain : Event → Prop
  | .began _ => False
  | .recorded .. => False
  | .marked .. => False
  | .unmarked .. => False
  | .removed .. => False
  | .forgot .. => False
  | _ => True

theorem Event.Plain.not_began {e : Event} (h : e.Plain) : ¬ e.IsBegan := by
  cases e <;> simp_all [Event.Plain, Event.IsBegan]

/-- Time has passed and things have been looked at. -/
structure Unmoved {γ : Type} (steady : Orders → γ) (w w' : World) : Prop where
  core : w'.core = w.core
  clock : w.clock ≤ w'.clock
  grew : Grew Event.Plain w w'
  orders : steady w'.orders = steady w.orders

theorem Unmoved.trans {γ : Type} {steady : Orders → γ} {w₁ w₂ w₃ : World} (h : Unmoved steady w₁ w₂)
    (h' : Unmoved steady w₂ w₃) : Unmoved steady w₁ w₃ :=
  ⟨h'.core.trans h.core, h.clock.trans h'.clock, h.grew.trans h'.grew,
    h'.orders.trans h.orders⟩

theorem Quietly.unmoved {γ : Type} {steady : Orders → γ} {w w' : World} (h : Quietly steady w w') :
    Unmoved steady w w' :=
  ⟨h.core, h.clock, ⟨[], h.log, by simp⟩, h.orders⟩

/-! ### The setting -/

section
variable (allowed : ∀ ⦃β : Type⦄, Call β → Fault → Prop) {γ : Type} (steady : Orders → γ)
  (I : World → Prop)

/-- A pass that has the bucket to itself and keeps `I`. -/
def alone : Setting World Call where
  answer := answers allowed
  inv := I
  rely := Quietly steady
  guar := fun _ _ => True
  rely_refl := Quietly.refl steady
  rely_trans := Quietly.trans

/-- A fault that was allowed for a call. -/
def Faulty {β : Type} (c : Call β) : Prop := ∃ fault, fault ≠ .none ∧ allowed c fault

/-- Some fault was allowed somewhere. -/
def SomeFault : Prop := ∃ (β : Type) (c : Call β), Faulty allowed c

/-- An invariant that survives looks. -/
def Lasting : Prop := ∀ w w', Unmoved steady w w' → I w → I w'

end

variable {allowed : ∀ ⦃β : Type⦄, Call β → Fault → Prop} {γ : Type} {steady : Orders → γ}
  {I : World → Prop} {w w' : World}

theorem Faulty.some {β : Type} {c : Call β} (h : Faulty allowed c) : SomeFault allowed :=
  ⟨β, c, h⟩

/-- The rule for any call: what it does in each way it may end. -/
theorem alone_ask {α : Type} {c : Call α} {Q : α → World → Prop} (hI : Lasting steady I)
    (h : ∀ w₁ fault, Unmoved steady w w₁ → w₁.log = w.log → I w₁ → allowed c fault →
      I (exec fault w₁ c).2 ∧
        ∀ w', Quietly steady (exec fault w₁ c).2 w' → I w' → Q (exec fault w₁ c).1 w') :
    Safe (alone allowed steady I) (Prog.ask c) Q w := by
  apply Safe.ask
  intro w₁ hq hi r w₂ ⟨fault, t, hallowed, hclock, hexec⟩
  have hmoved : Unmoved steady w₁ { w₁ with clock := t } :=
    ⟨rfl, hclock, Grew.refl w₁, rfl⟩
  obtain ⟨hi₂, hQ⟩ := h { w₁ with clock := t } fault (hq.unmoved.trans hmoved) hq.log
    (hI _ _ hmoved hi) hallowed
  rw [hexec] at hi₂ hQ
  exact ⟨hi₂, trivial, hQ⟩

/-- A call that changes nothing and tells of no change. -/
structure ReadOnly {α : Type} (c : Call α) : Prop where
  same : ∀ fault w, (execCall fault w c).2 = w
  plain : ∀ db r, ∀ e ∈ observe db c r, e.Plain

theorem ReadOnly.unmoved {α : Type} {c : Call α} (hc : ReadOnly c) {γ : Type}
    (steady : Orders → γ) (fault : Fault) (w : World) : Unmoved steady w (exec fault w c).2 := by
  have hsame := hc.same fault w
  refine ⟨?_, ?_, ⟨observe w.db c (execCall fault w c).1, ?_, hc.plain _ _⟩, ?_⟩
  · show (execCall fault w c).2.core = w.core
    rw [hsame]
  · show w.clock ≤ (execCall fault w c).2.clock
    rw [hsame]
  · rw [exec_log, hsame]
  · show steady (execCall fault w c).2.orders = steady w.orders
    rw [hsame]

/-- The rule for a look. -/
theorem alone_look {α : Type} {c : Call α} {Q : α → World → Prop} (hI : Lasting steady I)
    (hc : ReadOnly c)
    (h : ∀ w₁ fault w', Unmoved steady w w₁ → allowed c fault → Unmoved steady w₁ w' →
      w'.log = observe w₁.db c (execCall fault w₁ c).1 ++ w.log → Q (execCall fault w₁ c).1 w') :
    Safe (alone allowed steady I) (Prog.ask c) Q w := by
  apply alone_ask hI
  intro w₁ fault hm hlog hi hallowed
  have hm₂ := hc.unmoved steady fault w₁
  refine ⟨hI _ _ hm₂ hi, fun w' hq _ => h w₁ fault w' hm hallowed (hm₂.trans hq.unmoved) ?_⟩
  rw [hq.log, exec_log, hc.same, hlog]

/-! ### Looks -/

theorem readOnly_store {β : Type} {q : StoreCall β} {f : Database → β}
    (hrun : ∀ db, q.run db = .ok (f db, db)) (hplain : ∀ db a, ∀ e ∈ observeStore db q a, e.Plain)
    (hfail : observeFailed q = []) : ReadOnly (.store q) := by
  constructor
  · intro fault w
    cases fault <;> simp [execCall, hrun]
  · intro db r e he
    cases r with
    | error _ =>
      have he : e ∈ observeFailed q := he
      rw [hfail] at he
      cases he
    | ok a => exact hplain db a e he

/-- A statement that reads answers from the state, or a fault was allowed. -/
theorem alone_read {β : Type} {q : StoreCall β} {f : Database → β} (hI : Lasting steady I)
    (hrun : ∀ db, q.run db = .ok (f db, db))
    (hplain : ∀ db a, ∀ e ∈ observeStore db q a, e.Plain) (hfail : observeFailed q = []) :
    Safe (alone allowed steady I) (store q) (fun r w' => Unmoved steady w w' ∧
      ((∃ w₁, Unmoved steady w w₁ ∧ r = .ok (f w₁.db)) ∨
        ((∃ e, r = .error e) ∧ Faulty allowed (.store q)))) w := by
  apply alone_look hI (readOnly_store hrun hplain hfail)
  intro w₁ fault w' hm hallowed hm' _
  refine ⟨hm.trans hm', ?_⟩
  cases fault with
  | none => exact Or.inl ⟨w₁, hm, by simp [execCall, hrun]⟩
  | before => exact Or.inr ⟨⟨_, rfl⟩, .before, by simp, hallowed⟩
  | after => exact Or.inr ⟨⟨_, rfl⟩, .after, by simp, hallowed⟩

theorem readOnly_now : ReadOnly .now := ⟨fun _ _ => rfl, by simp [observe, Event.Plain]⟩

/-- The clock is read. -/
theorem alone_clock (hI : Lasting steady I) :
    Safe (alone allowed steady I) (Action.lift clock : Go Instant) (fun r w' => ∃ now,
      r = .ok now ∧ Unmoved steady w w' ∧ w.clock ≤ now ∧ now ≤ w'.clock ∧
        w'.log = .time now :: w.log) w := by
  apply Safe.lift
  apply alone_look hI readOnly_now
  intro w₁ fault w₂ hm _ hm₂ hlog
  apply Safe.ret
  intro w' hq _
  refine ⟨w₁.clock, rfl, (hm.trans hm₂).trans hq.unmoved, hm.clock, hm₂.clock.trans hq.clock, ?_⟩
  rw [hq.log, hlog]
  rfl

theorem readOnly_bucket {β : Type} (s : Settings) {q : BucketCall β}
    (hsame : ∀ w, (execBucket w q).2 = w)
    (hplain : ∀ r, ∀ e ∈ observeBucket s q r, e.Plain) : ReadOnly (.bucket s q) := by
  constructor
  · intro fault w
    cases fault with
    | none => exact hsame w
    | before => rfl
    | after => exact hsame w
  · intro db r
    exact hplain r

theorem readOnly_listObjects (s : Settings) (root : Text) (recursive : Bool) :
    ReadOnly (.bucket s (.listObjects root recursive)) :=
  readOnly_bucket s (fun _ => rfl) (by simp [observeBucket, Event.Plain])

theorem readOnly_readBytes (s : Settings) (key : Text) : ReadOnly (.bucket s (.readBytes key)) := by
  apply readOnly_bucket s
  · intro w
    simp only [execBucket]
    split <;> rfl
  · simp [observeBucket, Event.Plain]

theorem readOnly_bucketVersioning (s : Settings) : ReadOnly (.bucket s .bucketVersioning) := by
  apply readOnly_bucket s (fun _ => rfl)
  intro r e he
  cases r <;> simp_all [observeBucket, Event.Plain]

/-- A listing is what the bucket holds, or a fault was allowed. -/
theorem alone_list (hI : Lasting steady I) {s : Settings} {root : Text} {recursive : Bool} :
    Safe (alone allowed steady I) (bucket s (.listObjects root recursive)) (fun r w' =>
      Unmoved steady w w' ∧ (r = .ok (w.listing root recursive) ∨
        ((∃ e, r = .error e) ∧ Faulty allowed (.bucket s (.listObjects root recursive))))) w := by
  apply alone_look hI (readOnly_listObjects s root recursive)
  intro w₁ fault w' hm hallowed hm' _
  refine ⟨hm.trans hm', ?_⟩
  cases fault with
  | none =>
    left
    show Except.ok (w₁.listing root recursive) = .ok (w.listing root recursive)
    rw [World.listing, World.listing, World.objects_of_core hm.core]
  | before => exact Or.inr ⟨⟨_, rfl⟩, .before, by simp, hallowed⟩
  | after => exact Or.inr ⟨⟨_, rfl⟩, .after, by simp, hallowed⟩

/-- What reading a manifest gives and leaves in the log. -/
structure ManifestRead (w : World) (s : Settings) (key : Text) (r : Except Err Manifest)
    (log : List Event) : Prop where
  result : r.toOption = (w.manifestAt s key).toOption
  noted : ∀ c entry, w.content key = some c → s.entryFor key = .ok entry →
    .read s key (.ok c) ∈ thisPass log

/-- A manifest that was read is the stored one. -/
theorem ManifestRead.stored {w : World} {s : Settings} {key : Text} {m : Manifest}
    {log : List Event} (h : ManifestRead w s key (.ok m) log) : w.manifestAt s key = .ok m := by
  have hresult := h.result
  cases hm : w.manifestAt s key with
  | error err =>
    rw [hm] at hresult
    cases hresult
  | ok m' =>
    rw [hm] at hresult
    rw [Option.some.inj hresult]

theorem manifestAt_of_entryFor_error {w : World} {s : Settings} {key : Text} {e : Err}
    (h : s.entryFor key = .error e) : (w.manifestAt s key).toOption = none := by
  unfold World.manifestAt
  cases w.content key with
  | none => rfl
  | some c => simp [Settings.decodeManifest, h, Except.toOption]

theorem readManifest_alone (hI : Lasting steady I) {s : Settings} {key : Text} :
    Safe (alone allowed steady I) (readManifest s key) (fun r w' => Unmoved steady w w' ∧
      (ManifestRead w s key r w'.log ∨
        ((∃ e, r = .error e) ∧ Faulty allowed (.bucket s (.readBytes key))))) w := by
  apply Safe.bindAction
  apply Safe.ret
  intro w₁ hq₁ _
  cases hentry : s.entryFor key with
  | error e =>
    apply Safe.ret
    intro w' hq _
    refine ⟨hq₁.unmoved.trans hq.unmoved, Or.inl ⟨?_, fun c entry _ he => ?_⟩⟩
    · rw [manifestAt_of_entryFor_error hentry]
      rfl
    · rw [hentry] at he
      cases he
  | ok entry =>
    apply Safe.bindAction
    apply alone_look hI (readOnly_readBytes s key)
    intro w₂ fault w₃ hm hallowed hm₃ hlog
    have hm₂ : Unmoved steady w w₂ := hq₁.unmoved.trans hm
    have hcontent := World.content_congr (World.objects_of_core hm₂.core) key
    have hfault : ∀ e, fault ≠ .none → Safe (alone allowed steady I) (.ret (.error e))
        (fun r w' => Unmoved steady w w' ∧ (ManifestRead w s key r w'.log ∨
          ((∃ e, r = .error e) ∧ Faulty allowed (.bucket s (.readBytes key))))) w₃ := by
      intro e hf
      apply Safe.ret
      intro w' hq _
      exact ⟨(hm₂.trans hm₃).trans hq.unmoved, Or.inr ⟨⟨e, rfl⟩, fault, hf, hallowed⟩⟩
    cases fault with
    | before | after => exact hfault _ (by simp)
    | none =>
      simp only [execCall, execBucket, hcontent] at hlog ⊢
      cases hc : w.content key with
      | none =>
        apply Safe.ret
        intro w' hq _
        refine ⟨(hm₂.trans hm₃).trans hq.unmoved, Or.inl ⟨?_, fun c entry hsome _ => ?_⟩⟩
        · simp [World.manifestAt, hc, Except.toOption]
        · rw [hc] at hsome
          cases hsome
      | some c =>
        rw [hc] at hlog
        apply Safe.ret
        intro w' hq _
        refine ⟨(hm₂.trans hm₃).trans hq.unmoved, Or.inl ⟨?_, fun c' entry hsome _ => ?_⟩⟩
        · simp [World.manifestAt, hc]
        · rw [hc] at hsome
          cases hsome
          rw [hq.log, hlog]
          simp [observe, observeBucket, thisPass, Event.IsBegan]

/-! ### Writes -/

/-- The state right after a statement that changes the database by `f`. -/
def World.after (w : World) (q : StoreCall Unit) (f : Database → Database) : World :=
  { w with db := f w.db, log := observeStore w.db q () ++ w.log }

/-- A statement that writes does so in a state that is `w` up to looks, or a
    fault was allowed and nothing happened. -/
inductive Wrote (allowed : ∀ ⦃β : Type⦄, Call β → Fault → Prop) {γ : Type} (steady : Orders → γ)
    (q : StoreCall Unit) (f : Database → Database) (w : World) : Except Err Unit → World → Prop
  | done {w₁ w' : World} (look : Unmoved steady w w₁) (log : w₁.log = w.log)
      (quiet : Quietly steady (w₁.after q f) w') : Wrote allowed steady q f w (.ok ()) w'
  | failed {w' : World} (e : Err) (fault : Faulty allowed (.store q))
      (look : Unmoved steady w w') (log : w'.log = w.log) :
      Wrote allowed steady q f w (.error e) w'

theorem exec_failed {q : StoreCall Unit} {fault : Fault} (hfault : fault ≠ .none) (w : World)
    (hfail : observeFailed q = []) : exec fault w (.store q) = (.error .driver, w) := by
  cases fault with
  | none => exact absurd rfl hfault
  | before | after => simp only [exec, execCall, observe, hfail, List.nil_append]

theorem alone_write {q : StoreCall Unit} {f : Database → Database} (hI : Lasting steady I)
    (hrun : ∀ db, q.run db = .ok ((), f db)) (hfail : observeFailed q = [])
    (hkeep : ∀ w₁, Unmoved steady w w₁ → w₁.log = w.log → I w₁ → I (w₁.after q f)) :
    Safe (alone allowed steady I) (store q) (fun r w' => Wrote allowed steady q f w r w') w := by
  apply alone_ask hI
  intro w₁ fault hm hlog hi hallowed
  cases fault with
  | none =>
    have hexec : exec .none w₁ (.store q) = (.ok (), w₁.after q f) := by
      simp only [exec, execCall, hrun]
      rfl
    rw [hexec]
    exact ⟨hkeep w₁ hm hlog hi, fun w' hq _ => .done hm hlog hq⟩
  | before =>
    rw [exec_failed (by simp) w₁ hfail]
    refine ⟨hi, fun w' hq _ => .failed _ ⟨.before, by simp, hallowed⟩ (hm.trans hq.unmoved) ?_⟩
    exact hq.log.trans hlog
  | after =>
    rw [exec_failed (by simp) w₁ hfail]
    refine ⟨hi, fun w' hq _ => .failed _ ⟨.after, by simp, hallowed⟩ (hm.trans hq.unmoved) ?_⟩
    exact hq.log.trans hlog

/-- What setting a delete marker leaves: the marker, or a fault was allowed. -/
inductive Marked (allowed : ∀ ⦃β : Type⦄, Call β → Fault → Prop) {γ : Type} (steady : Orders → γ)
    (target key : Text) (now : Instant) (w : World) : Except Err Unit → World → Prop
  | done {w₁ w' : World} (look : Unmoved steady w w₁) (log : w₁.log = w.log)
      (quiet : Quietly steady (w₁.after (.markBackupDeleting target key now)
        (·.markBackupDeleting target key now)) w') :
      Marked allowed steady target key now w (.ok ()) w'
  | failed {w₁ w' : World} (e : Err)
      (fault : Faulty allowed (.store (.markBackupDeleting target key now)))
      (look : Unmoved steady w w₁) (log : w₁.log = w.log)
      (quiet : Quietly steady { w₁ with log := .unmarked target key :: w₁.log } w') :
      Marked allowed steady target key now w (.error e) w'

theorem alone_mark (hI : Lasting steady I) {target key : Text} {now : Instant}
    (hkeep : ∀ w₁, Unmoved steady w w₁ → w₁.log = w.log → I w₁ →
      I (w₁.after (.markBackupDeleting target key now) (·.markBackupDeleting target key now)))
    (hfail : ∀ w₁, Unmoved steady w w₁ → w₁.log = w.log → I w₁ →
      I { w₁ with log := .unmarked target key :: w₁.log }) :
    Safe (alone allowed steady I) (store (.markBackupDeleting target key now))
      (fun r w' => Marked allowed steady target key now w r w') w := by
  apply alone_ask hI
  intro w₁ fault hm hlog hi hallowed
  cases fault with
  | none => exact ⟨hkeep w₁ hm hlog hi, fun w' hq _ => .done hm hlog hq⟩
  | before =>
    exact ⟨hfail w₁ hm hlog hi, fun w' hq _ => .failed _ ⟨.before, by simp, hallowed⟩ hm hlog hq⟩
  | after =>
    exact ⟨hfail w₁ hm hlog hi, fun w' hq _ => .failed _ ⟨.after, by simp, hallowed⟩ hm hlog hq⟩

/-- A statement that writes only what a pass does not look at. -/
structure Aside (q : StoreCall Unit) (f : Database → Database) : Prop where
  run : ∀ db, q.run db = .ok ((), f db)
  failed : observeFailed q = []
  same : ∀ w : World, Unmoved id w (w.after q f)

theorem Aside.unmoved {q : StoreCall Unit} {f : Database → Database} (h : Aside q f)
    {γ : Type} (steady : Orders → γ) (w : World) : Unmoved steady w (w.after q f) :=
  ⟨(h.same w).core, (h.same w).clock, (h.same w).grew, congrArg steady (h.same w).orders⟩

theorem alone_aside {q : StoreCall Unit} {f : Database → Database} (hI : Lasting steady I)
    (hq : Aside q f) :
    Safe (alone allowed steady I) (store q) (fun r w' => Unmoved steady w w' ∧
      (r = .ok () ∨ ((∃ e, r = .error e) ∧ SomeFault allowed))) w := by
  have hkeep : ∀ w₁, Unmoved steady w w₁ → w₁.log = w.log → I w₁ → I (w₁.after q f) :=
    fun w₁ _ _ hi => hI _ _ (hq.unmoved steady w₁) hi
  apply (alone_write hI hq.run hq.failed hkeep).mono
  intro r w' hw
  cases hw with
  | @done w₁ _ look log quiet =>
    exact ⟨(look.trans (hq.unmoved steady w₁)).trans quiet.unmoved, Or.inl rfl⟩
  | failed e fault look log => exact ⟨look, Or.inr ⟨⟨e, rfl⟩, fault.some⟩⟩

/-- What a removal leaves: the object is gone, or a fault was allowed. -/
inductive Erased (allowed : ∀ ⦃β : Type⦄, Call β → Fault → Prop) {γ : Type}
    (steady : Orders → γ) (s : Settings) (key : Text) (w : World) : Except Err Unit → World → Prop
  | done {w₁ w' : World} (look : Unmoved steady w w₁) (log : w₁.log = w.log)
      (quiet : Quietly steady { w₁.without key with log := .removed s key true :: w₁.log } w') :
      Erased allowed steady s key w (.ok ()) w'
  | failed {w₁ w' : World} (e : Err) (fault : Faulty allowed (.bucket s (.removeObject key)))
      (look : Unmoved steady w w₁) (log : w₁.log = w.log)
      (quiet : Quietly steady { w₁ with log := .removed s key false :: w₁.log } w') :
      Erased allowed steady s key w (.error e) w'
  | failedAfter {w₁ w' : World} (e : Err)
      (fault : Faulty allowed (.bucket s (.removeObject key)))
      (look : Unmoved steady w w₁) (log : w₁.log = w.log)
      (quiet : Quietly steady { w₁.without key with log := .removed s key false :: w₁.log } w') :
      Erased allowed steady s key w (.error e) w'

theorem alone_remove (hI : Lasting steady I) {s : Settings} {key : Text}
    (hgone : ∀ w₁ ok, Unmoved steady w w₁ → w₁.log = w.log → I w₁ →
      I { w₁.without key with log := .removed s key ok :: w₁.log })
    (hstays : ∀ w₁, Unmoved steady w w₁ → w₁.log = w.log → I w₁ →
      I { w₁ with log := .removed s key false :: w₁.log }) :
    Safe (alone allowed steady I) (remove s key)
      (fun r w' => Erased allowed steady s key w r w') w := by
  apply alone_ask hI
  intro w₁ fault hm hlog hi hallowed
  cases fault with
  | none => exact ⟨hgone w₁ true hm hlog hi, fun w' hq _ => .done hm hlog hq⟩
  | before =>
    exact ⟨hstays w₁ hm hlog hi, fun w' hq _ =>
      .failed _ ⟨.before, by simp, hallowed⟩ hm hlog hq⟩
  | after =>
    exact ⟨hgone w₁ false hm hlog hi, fun w' hq _ =>
      .failedAfter _ ⟨.after, by simp, hallowed⟩ hm hlog hq⟩

end Pgfy
