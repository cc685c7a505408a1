import Pgfy.Jobs.Replaced

/-! # What was recorded before does not matter

    A pass reads a manifest only if it has not recorded the owner of its key
    before. Where each manifest key only ever holds one content, this makes no
    difference: what a pass records is what it would record with nothing known,
    reading every manifest the listings show.

    The bucket lists anything at any time, so its contents may change before,
    between and during passes; statements may fail, and passes may stop anywhere.
    Only the reads of manifests are fixed.
-/

namespace Pgfy

open Calendar Storage Program

/-! ### Manifests that do not change -/

/-- What each manifest key of a store holds, whenever it is there. -/
abbrev Holdings := Text → Text → Content

/-- A read gives what the key holds. -/
def Gives (content : Holdings) {β : Type} : Call β → β → Prop
  | .bucket s (.readBytes key), r => r = .ok (content s.target key)
  | _, _ => True

/-- Listings answer anything and any call but a read may fail. -/
def unchanging (content : Holdings) : Answers World Call := fun _ w c r w' =>
  adversary w c r w' ∧ Gives content c r

/-- What others may do at any time: anything but write the view and its counts. -/
structure Undisturbed (w w' : World) : Prop where
  log : w'.log = w.log
  view : w'.db.bucketBackups = w.db.bucketBackups
  prefixes : w'.db.prefixes = w.db.prefixes

theorem Undisturbed.refl (w : World) : Undisturbed w w := ⟨rfl, rfl, rfl⟩

theorem Undisturbed.trans {w₁ w₂ w₃ : World} (h : Undisturbed w₁ w₂) (h' : Undisturbed w₂ w₃) :
    Undisturbed w₁ w₃ :=
  ⟨h'.log.trans h.log, h'.view.trans h.view, h'.prefixes.trans h.prefixes⟩

/-- The states that passes over whatever stores reach, from an empty view on. -/
inductive Arrived (content : Holdings) : World → Prop
  | start (w : World) (rows : w.db.bucketBackups = []) (folders : w.db.prefixes = []) :
      Arrived content w
  | meanwhile {w w' : World} (h : Arrived content w) (step : Undisturbed w w') : Arrived content w'
  | pass {w w' : World} (s : Settings) (installationID : String) {r : Option (Except Err Unit)}
      (h : Arrived content w)
      (run : Trace (unchanging content) Undisturbed (reconcile s installationID) (w.begin s) r w') :
      Arrived content w'

/-! ### What a pass that knows nothing would record -/

/-- The one answer of each read, and some answer to any other call. -/
def readOnly (content : Holdings) ⦃β : Type⦄ (w : World) : Call β → β × World
  | .bucket s (.readBytes key) =>
    (.ok (content s.target key),
      { w with log := .read s key (.ok (content s.target key)) :: w.log })
  | c => exec .none w c

/-- The rows of a folder made from its listing by reading every manifest. -/
def freshRows (content : Holdings) (s : Settings) (d : Text) (objects : List Object) :
    List BucketBackup :=
  ((readEntries s [] d (entriesFrom (s.databaseRoot d) objects)).run (readOnly content) {}).1

/-- The newest listing of a folder in a log. -/
def lastListed (root : Text) : List Event → Option (List Object)
  | [] => none
  | .listed root' (.ok objects) :: log => if root' = root then some objects else lastListed root log
  | _ :: log => lastListed root log

/-- What the pass under way has been told about a folder. -/
def World.heard (w : World) (root : Text) : List Object :=
  (lastListed root (thisPass w.log)).getD []

/-- The database folders that a listing shows. -/
def databaseNames (s : Settings) (objects : List Object) : List Text :=
  ((objects.map (segmentBelow s.backupsRoot)).filter (fun n =>
    n ≠ [] && validDatabaseSegment n)).insertionSort (· ≤ ·)

/-- The database folders of the pass under way. -/
def World.names (w : World) (s : Settings) : List Text := databaseNames s (w.heard s.backupsRoot)

/-- The rows of a folder computed from its listing in the pass under way. A
    folder that was not listed has none. -/
def World.freshFolder (content : Holdings) (s : Settings) (w : World) (d : Text) :
    List BucketBackup :=
  if d ∈ w.names s then freshRows content s d (w.heard (s.databaseRoot d)) else []

/-- The rows of the store computed from the listings of the pass under way. -/
def World.freshView (content : Holdings) (s : Settings) (w : World) : List BucketBackup :=
  (w.names s).flatMap (w.freshFolder content s)

/-- The pass under way has removed the manifest or the archive of a backup. -/
def World.Removed (s : Settings) (w : World) (b : BucketBackup) : Prop :=
  .removed s b.manifestKey true ∈ thisPass w.log ∨ .removed s b.archiveKey true ∈ thisPass w.log

/-- A row without its delete marker. -/
def BucketBackup.unmarked (b : BucketBackup) : BucketBackup := { b with deleteStartedAt := 0 }

/-- The rows and counts of a store after a pass are those computed from its
    listings alone, and those of other stores are as they were before it. -/
structure AsFresh (content : Holdings) (s : Settings) (w w' : World) : Prop where
  /-- apart from backups that this pass has removed, the rows are those computed -/
  rows : ∀ b, ¬ w'.Removed s b →
    ((∃ r, (s.target, r) ∈ w'.db.bucketBackups ∧ r.unmarked = b) ↔ b ∈ w'.freshView content s)
  /-- each key has one row -/
  once : (w'.db.bucketBackups.map Database.rowKey).Nodup
  /-- the counts are those of the rows computed; a folder that is gone has none -/
  counts : ∀ p, (s.target, p) ∈ w'.db.prefixes →
    { p with reconciledAt := 0 } = folderState p.dbName (w'.freshFolder content s p.dbName)
  counted : ∀ d ∈ w'.names s, ∃ p, (s.target, p) ∈ w'.db.prefixes ∧ p.dbName = d
  otherRows : ∀ r, r.1 ≠ s.target → (r ∈ w'.db.bucketBackups ↔ r ∈ w.db.bucketBackups)
  otherCounts : ∀ p, p.1 ≠ s.target → (p ∈ w'.db.prefixes ↔ p ∈ w.db.prefixes)

section
variable {content : Holdings} {s : Settings} {d : Text}

/-- The row of one entry with nothing known. -/
def freshRow (content : Holdings) (s : Settings) (d : Text) (e : Entry) : BucketBackup :=
  if e.state = .complete ∨ e.state = .manifestOnly then
    classify (e.row d) e (s.decodeManifest e.manifestKey (content s.target e.manifestKey))
  else e.row d

theorem run_readManifest (key : Text) (w : World) :
    ((readManifest s key).run (readOnly content) w).1 =
      s.decodeManifest key (content s.target key) := by
  unfold readManifest Settings.decodeManifest
  cases s.entryFor key with
  | error e => rfl
  | ok entry => rfl

theorem run_bind {α β : Type} (p : Run α) (f : α → Run β) (w : World) :
    (p.bind f).run (readOnly content) w =
      (f (p.run (readOnly content) w).1).run (readOnly content)
        (p.run (readOnly content) w).2 := by
  induction p generalizing w with
  | ret a => rfl
  | call c next ih => exact ih _ _

theorem run_readEntry (e : Entry) (w : World) :
    ((readEntry s [] d e).run (readOnly content) w).1 = freshRow content s d e := by
  unfold readEntry freshRow
  split
  · refine (congrArg Prod.fst (run_bind _ _ w)).trans ?_
    rw [run_readManifest]
    rfl
  · rfl

theorem run_readEntries (es : List Entry) (w : World) :
    ((readEntries s [] d es).run (readOnly content) w).1 = es.map (freshRow content s d) := by
  induction es generalizing w with
  | nil => rfl
  | cons e es ih =>
    refine (congrArg Prod.fst (run_bind _ _ w)).trans ?_
    rw [run_readEntry]
    refine (congrArg Prod.fst (run_bind _ _ _)).trans ?_
    rw [ih]
    rfl

/-- With nothing known each entry is classified by what its manifest key holds. -/
theorem freshRows_eq (objects : List Object) : freshRows content s d objects =
    (entriesFrom (s.databaseRoot d) objects).map (freshRow content s d) :=
  run_readEntries _ _

theorem rowOf_freshRow (e : Entry) : RowOf d e (freshRow content s d e) := by
  unfold freshRow
  split
  · next h => exact rowOf_classify d h _
  · exact rowOf_row d e

theorem forall₂_freshRows (objects : List Object) :
    List.Forall₂ (RowOf d) (entriesFrom (s.databaseRoot d) objects)
      (freshRows content s d objects) := by
  rw [freshRows_eq, List.forall₂_map_right_iff]
  exact List.forall₂_same.mpr (fun e _ => rowOf_freshRow e)

/-! ### Rows that say what their manifest key holds -/

/-- What a row says of its owner is what a valid manifest under its key says. -/
def Attested (content : Holdings) (target : Text) (b : BucketBackup) : Prop :=
  (content target b.manifestKey).size ≤ maxManifestBytes ∧
    ∃ m, (content target b.manifestKey).manifest = some m ∧
      checkManifest { m with manifestKey := b.manifestKey } b.entry = .ok () ∧ b = b.withManifest m

theorem Attested.marked {target : Text} {b : BucketBackup} (h : Attested content target b) (k : ℤ) :
    Attested content target { b with deleteStartedAt := k } := by
  obtain ⟨hsize, m, hm, hcheck, hb⟩ := h
  refine ⟨hsize, m, hm, hcheck, ?_⟩
  rw [hb]
  rfl

/-- An entry whose manifest is read lies in a directory with a proper name. -/
theorem directoryOf_entry {objects : List Object} {e : Entry}
    (he : e ∈ entriesFrom (s.databaseRoot d) objects)
    (hstate : e.state = .complete ∨ e.state = .manifestOnly) :
    ∃ name, DirectoryOf s d name (e.row d) ∧ e.directory = s.databaseRoot d ++ name := by
  obtain ⟨name, hname⟩ := entryOf_of_mem he
  obtain ⟨file, hfile⟩ := hname.nonempty
  refine ⟨name, ⟨hfile.slash.1, hname.parses ?_, hname.manifestKey, hname.archiveKey⟩,
    hname.directory⟩
  rcases hstate with h | h <;> rw [h] <;> decide

/-- Of an entry and of its row, `checkManifest` sees the same. -/
theorem checkManifest_entry {name : Text} {e : Entry} (hdir : DirectoryOf s d name (e.row d))
    (hname : e.directory = s.databaseRoot d ++ name) (m : Manifest) :
    checkManifest m e = checkManifest m (e.row d).entry :=
  checkManifest_congr (hname.trans hdir.entry_directory.symm) rfl rfl

/-- A row whose manifest was read is what the manifest says, or damaged. -/
theorem freshRow_read {objects : List Object} {e : Entry} (hd : validDatabaseSegment d = true)
    (he : e ∈ entriesFrom (s.databaseRoot d) objects)
    (hstate : e.state = .complete ∨ e.state = .manifestOnly) :
    freshRow content s d e = { e.row d with state := .damaged } ∨
      Attested content s.target (freshRow content s d e) := by
  obtain ⟨name, hdir, hname⟩ := directoryOf_entry he hstate
  unfold freshRow
  rw [if_pos hstate]
  cases hdecode : s.decodeManifest e.manifestKey (content s.target e.manifestKey) with
  | error err => exact Or.inl rfl
  | ok m =>
    obtain ⟨hsize, m₀, hm₀, rfl, hcheck⟩ := (hdir.decodeManifest_iff hd).mp hdecode
    right
    simp only [classify, checkManifest_entry hdir hname, hcheck]
    exact ⟨hsize, m₀, hm₀, hcheck, rfl⟩

/-- Rows that name an owner, and rows of backups with a manifest, are attested. -/
theorem attested_freshRow {objects : List Object} {e : Entry} (hd : validDatabaseSegment d = true)
    (he : e ∈ entriesFrom (s.databaseRoot d) objects)
    (h : (freshRow content s d e).installationID ≠ "" ∨
      (freshRow content s d e).state = .complete) :
    Attested content s.target (freshRow content s d e) := by
  by_cases hstate : e.state = .complete ∨ e.state = .manifestOnly
  · rcases freshRow_read hd he hstate with hdamaged | hattested
    · rw [hdamaged] at h
      rcases h with h | h
      · exact absurd rfl h
      · cases h
    · exact hattested
  · unfold freshRow at h
    rw [if_neg hstate] at h
    rcases h with h | h
    · exact absurd rfl h
    · exact absurd (Or.inl h) hstate

/-- An owner recorded before is the one that reading the manifest gives. -/
theorem withRecorded_eq_freshRow {objects : List Object} {e : Entry} {previous : BucketBackup}
    (hd : validDatabaseSegment d = true) (he : e ∈ entriesFrom (s.databaseRoot d) objects)
    (hstate : e.state = .complete ∨ e.state = .manifestOnly)
    (hkey : previous.manifestKey = e.manifestKey) (harchive : previous.archiveKey = e.archiveKey)
    (h : Attested content s.target previous) :
    (e.row d).withRecorded previous = freshRow content s d e := by
  obtain ⟨name, hdir, hname⟩ := directoryOf_entry he hstate
  have hentry : previous.entry = (e.row d).entry := by
    unfold BucketBackup.entry
    rw [hkey, harchive]
    rfl
  obtain ⟨hsize, m, hm, hcheck, hprevious⟩ := h
  rw [hkey] at hsize hm
  rw [hkey, hentry] at hcheck
  have hdecode := (hdir.decodeManifest_iff hd).mpr ⟨hsize, m, hm, rfl, hcheck⟩
  have hdecode : s.decodeManifest e.manifestKey (content s.target e.manifestKey) =
      .ok { m with manifestKey := e.manifestKey } := hdecode
  have hcheck : checkManifest { m with manifestKey := e.manifestKey } (e.row d).entry = .ok () :=
    hcheck
  unfold freshRow
  rw [if_pos hstate, hdecode]
  simp only [classify, checkManifest_entry hdir hname, hcheck]
  rw [hprevious]
  rfl

end

/-! ### What the pass has been told -/

/-- Events that neither begin a pass nor show a listing. -/
def Event.Silent : Event → Prop
  | .began _ => False
  | .listed .. => False
  | _ => True

theorem Event.Silent.not_began {e : Event} (h : e.Silent) : ¬ e.IsBegan := by
  cases e <;> simp_all [Event.Silent, Event.IsBegan]

theorem lastListed_append {new log : List Event} {root : Text} (h : ∀ e ∈ new, e.Silent) :
    lastListed root (new ++ log) = lastListed root log := by
  induction new with
  | nil => rfl
  | cons e new ih =>
    have hrest := ih (fun e' he' => h e' (List.mem_cons_of_mem e he'))
    have he := h e List.mem_cons_self
    cases e with
    | listed root' objects => exact he.elim
    | _ => exact hrest

section
variable {w w' : World}

theorem Grew.heard (h : Grew Event.Silent w w') : w'.heard = w.heard := by
  obtain ⟨new, hlog, hnew⟩ := h
  funext root
  unfold World.heard
  rw [hlog, thisPass_append (fun e he => (hnew e he).not_began), lastListed_append hnew]

/-- A listing is heard, and nothing else is forgotten. -/
theorem World.heard_listed {root : Text} {objects : List Object}
    (hlog : w'.log = .listed root (.ok objects) :: w.log) (root' : Text) :
    w'.heard root' = if root = root' then objects else w.heard root' := by
  have hpass : thisPass w'.log = .listed root (.ok objects) :: thisPass w.log := by
    rw [hlog]
    simp [thisPass, Event.IsBegan]
  unfold World.heard
  rw [hpass, lastListed]
  split <;> rfl

/-- The tables are as they were, and no listing was made. -/
structure Still (w w' : World) : Prop where
  view : w'.db.bucketBackups = w.db.bucketBackups
  prefixes : w'.db.prefixes = w.db.prefixes
  grew : Grew Event.Silent w w'

theorem Undisturbed.still (h : Undisturbed w w') : Still w w' :=
  ⟨h.view, h.prefixes, [], h.log, by simp⟩

theorem Still.trans {w₁ w₂ w₃ : World} (h : Still w₁ w₂) (h' : Still w₂ w₃) : Still w₁ w₃ :=
  ⟨h'.view.trans h.view, h'.prefixes.trans h.prefixes, h.grew.trans h'.grew⟩

end

/-! ### The rules of the proof -/

/-- A pass over unchanging manifests, among others that leave the view alone. -/
def among (content : Holdings) (I : World → Prop) : Setting World Call where
  answer := unchanging content
  inv := I
  rely := Undisturbed
  guar := fun _ _ => True
  rely_refl := Undisturbed.refl
  rely_trans := Undisturbed.trans

/-- An invariant that survives whatever leaves the tables alone. -/
def Lasts (I : World → Prop) : Prop := ∀ w w', Still w w' → I w → I w'

/-- A call that leaves the tables alone and makes no listing. -/
structure Silently {β : Type} (c : Call β) : Prop where
  tables : ∀ r db db', StoreEffect c r db db' →
    db'.bucketBackups = db.bucketBackups ∧ db'.prefixes = db.prefixes
  silent : ∀ db r, ∀ e ∈ observe db c r, e.Silent

section
variable {content : Holdings} {I : World → Prop} {w : World} {s : Settings}

/-- The rule for a call. -/
theorem among_ask {α : Type} {c : Call α} {Q : α → World → Prop}
    (h : ∀ w₁ r w₂, Undisturbed w w₁ → I w₁ → unchanging content w₁ c r w₂ →
      I w₂ ∧ ∀ w', Undisturbed w₂ w' → I w' → Q r w') :
    Safe (among content I) (Prog.ask c) Q w := by
  apply Safe.ask
  intro w₁ hu hi r w₂ ha
  obtain ⟨hi₂, hQ⟩ := h w₁ r w₂ hu hi ha
  exact ⟨hi₂, trivial, hQ⟩

/-- What is known after a call that leaves the tables alone. -/
structure Learned {α : Type} (content : Holdings) (c : Call α) (w : World) (r : α) (w' : World) :
    Prop where
  still : Still w w'
  gives : Gives content c r
  answer : ∃ db db', db.bucketBackups = w.db.bucketBackups ∧ db.prefixes = w.db.prefixes ∧
    StoreEffect c r db db' ∧ w'.log = observe db c r ++ w.log

theorem among_silently (hI : Lasts I) {α : Type} {c : Call α} (hc : Silently c) :
    Safe (among content I) (Prog.ask c) (fun r w' => Learned content c w r w' ∧ I w') w := by
  apply among_ask
  intro w₁ r w₂ hu hi ⟨⟨hlog, heff⟩, hgives⟩
  obtain ⟨hview, hprefixes⟩ := hc.tables r _ _ heff
  have hstill : Still w₁ w₂ := ⟨hview, hprefixes, _, hlog, hc.silent w₁.db r⟩
  refine ⟨hI w₁ w₂ hstill hi, fun w' hu' hi' => ⟨⟨?_, hgives, ?_⟩, hi'⟩⟩
  · exact (hu.still.trans hstill).trans hu'.still
  · exact ⟨w₁.db, w₂.db, hu.view, hu.prefixes, heff, by rw [hu'.log, hlog, hu.log]⟩

theorem silent_observeStore {β : Type} (q : StoreCall β) (db : Database) (r : Except Err β) :
    ∀ e ∈ observe db (.store q) r, e.Silent := by
  intro e he
  cases r with
  | error =>
    obtain ⟨target, key, rfl⟩ := mem_observeFailed he
    trivial
  | ok a =>
    cases q <;> simp [observe, observeStore] at he
    all_goals first
      | (rw [he]; trivial)
      | (rw [he.2]; trivial)

/-- A statement that leaves the tables of the view alone. -/
theorem silently_store {β : Type} {q : StoreCall β}
    (h : ∀ db a db', q.run db = .ok (a, db') →
      db'.bucketBackups = db.bucketBackups ∧ db'.prefixes = db.prefixes) :
    Silently (.store q) := by
  refine ⟨?_, silent_observeStore q⟩
  intro r db db' heff
  rcases heff with ⟨a, hrun, -⟩ | ⟨-, rfl⟩
  · exact h db a db' hrun
  · exact ⟨rfl, rfl⟩

theorem silently_read {β : Type} {q : StoreCall β} {f : Database → β}
    (hq : ∀ db, q.run db = StoreCall.read f db) : Silently (.store q) := by
  apply silently_store
  intro db a db' hrun
  obtain ⟨-, rfl⟩ := StoreCall.read_eq_ok.mp ((hq db).symm.trans hrun)
  exact ⟨rfl, rfl⟩

theorem silently_write {q : StoreCall Unit} {f : Database → Database}
    (hq : ∀ db, q.run db = StoreCall.write f db)
    (hf : ∀ db, (f db).bucketBackups = db.bucketBackups ∧ (f db).prefixes = db.prefixes) :
    Silently (.store q) := by
  apply silently_store
  intro db a db' hrun
  obtain rfl := StoreCall.write_eq_ok.mp ((hq db).symm.trans hrun)
  exact hf db

theorem silently_now : Silently .now :=
  ⟨fun _ _ _ heff => heff ▸ ⟨rfl, rfl⟩, by simp [observe, Event.Silent]⟩

theorem silently_bucket {β : Type} {q : BucketCall β}
    (hq : ∀ r, ∀ e ∈ observeBucket s q r, e.Silent) : Silently (.bucket s q) :=
  ⟨fun _ _ _ heff => heff ▸ ⟨rfl, rfl⟩, fun _ r => hq r⟩

/-- What a statement that only reads has answered. -/
theorem among_read (hI : Lasts I) {β : Type} {q : StoreCall β} {f : Database → β}
    (hq : ∀ db, q.run db = StoreCall.read f db) :
    Safe (among content I) (store q) (fun r w' => Still w w' ∧ I w' ∧ ∀ a, r = .ok a →
      ∃ db, db.bucketBackups = w.db.bucketBackups ∧ db.prefixes = w.db.prefixes ∧ a = f db) w := by
  apply (among_silently hI (silently_read hq)).mono
  intro r w' ⟨htold, hi⟩
  refine ⟨htold.still, hi, fun a hr => ?_⟩
  obtain ⟨db, db', hview, hprefixes, heff, -⟩ := htold.answer
  rcases heff with ⟨a', hrun, hr'⟩ | ⟨⟨e, hr'⟩, -⟩
  · obtain ⟨rfl, -⟩ := StoreCall.read_eq_ok.mp ((hq db).symm.trans hrun)
    exact ⟨db, hview, hprefixes, Except.ok.inj (hr.symm.trans hr')⟩
  · rw [hr] at hr'
    cases hr'

/-- A statement that leaves the tables of the view alone. -/
theorem among_write (hI : Lasts I) {q : StoreCall Unit} {f : Database → Database}
    (hq : ∀ db, q.run db = StoreCall.write f db)
    (hf : ∀ db, (f db).bucketBackups = db.bucketBackups ∧ (f db).prefixes = db.prefixes) :
    Safe (among content I) (store q) (fun _ w' => Still w w') w :=
  (among_silently hI (silently_write hq hf)).mono (fun _ _ h => h.1.still)

theorem among_clock (hI : Lasts I) :
    Safe (among content I) (Action.lift clock : Go Instant) (fun r w' => Still w w' ∧
      ∃ now, r = .ok now) w := by
  apply Safe.lift
  apply (among_silently hI silently_now).mono
  intro now w₁ ⟨htold, _⟩
  exact Safe.ret (fun w' hu _ => ⟨htold.still.trans hu.still, now, rfl⟩)

/-- Reading a manifest gives what its key holds. -/
theorem readManifest_among (hI : Lasts I) {key : Text} :
    Safe (among content I) (readManifest s key) (fun r w' => Still w w' ∧
      r = s.decodeManifest key (content s.target key)) w := by
  unfold readManifest
  apply Safe.bindAction
  apply Safe.ret
  intro w₁ hu₁ _
  cases hentry : s.entryFor key with
  | error e =>
    apply Safe.ret
    intro w' hu' _
    refine ⟨(hu₁.trans hu').still, ?_⟩
    rw [Settings.decodeManifest, hentry]
  | ok entry =>
    apply Safe.bindAction
    apply (among_silently hI (silently_bucket (by simp [observeBucket, Event.Silent]))).mono
    rintro r w₂ ⟨htold, _⟩
    obtain rfl : r = .ok (content s.target key) := htold.gives
    apply Safe.ret
    intro w' hu' _
    exact ⟨(hu₁.still.trans htold.still).trans hu'.still, rfl⟩

end

/-! ### The invariant -/

/-- What the rows of the view keep to, whichever store they are of. -/
structure Coherent (content : Holdings) (w : World) : Prop where
  /-- a recorded owner is the one its manifest names -/
  attested : ∀ r ∈ w.db.bucketBackups, r.2.installationID ≠ "" → Attested content r.1 r.2
  placed : ∀ r ∈ w.db.bucketBackups, r.2.Placed
  keys : (w.db.bucketBackups.map Database.rowKey).Nodup
  /-- a folder with rows has its counts, so it is not overlooked when it vanishes -/
  folders : ∀ r ∈ w.db.bucketBackups, ∃ p, (r.1, p) ∈ w.db.prefixes ∧ p.dbName = r.2.dbName

/-- The rows and counts of all other stores are as they were in `w`. -/
structure Elsewhere (target : Text) (w w' : World) : Prop where
  rows : ∀ r, r.1 ≠ target → (r ∈ w'.db.bucketBackups ↔ r ∈ w.db.bucketBackups)
  counts : ∀ p, p.1 ≠ target → (p ∈ w'.db.prefixes ↔ p ∈ w.db.prefixes)

/-- The invariant of a pass over a store that began in `w₀`. -/
structure Keeping (content : Holdings) (target : Text) (w₀ w : World) : Prop where
  coherent : Coherent content w
  elsewhere : Elsewhere target w₀ w

section
variable {content : Holdings} {target : Text} {w₀ w w' : World}

theorem Coherent.congr (h : Coherent content w)
    (hview : w'.db.bucketBackups = w.db.bucketBackups)
    (hprefixes : w'.db.prefixes = w.db.prefixes) : Coherent content w' := by
  refine ⟨?_, ?_, ?_, ?_⟩ <;> rw [hview]
  · exact h.attested
  · exact h.placed
  · exact h.keys
  · rw [hprefixes]
    exact h.folders

theorem Keeping.congr (h : Keeping content target w₀ w)
    (hview : w'.db.bucketBackups = w.db.bucketBackups)
    (hprefixes : w'.db.prefixes = w.db.prefixes) : Keeping content target w₀ w' := by
  refine ⟨h.coherent.congr hview hprefixes, ?_, ?_⟩
  · rw [hview]
    exact h.elsewhere.rows
  · rw [hprefixes]
    exact h.elsewhere.counts

theorem keeping_lasts : Lasts (Keeping content target w₀) :=
  fun _ _ hstill h => h.congr hstill.view hstill.prefixes

/-- A folder was recorded with some rows. -/
structure Refilled (target : Text) (state : PrefixState) (bs : List BucketBackup) (w w' : World) :
    Prop where
  view : w'.db.bucketBackups =
    Database.replaceRows target state.dbName bs w.db.bucketBackups
  prefixes : ∃ now, w'.db.prefixes = Database.replaceState target state now w.db.prefixes

/-- Rows that may be recorded for a folder. -/
def Recordables (content : Holdings) (target d : Text) (bs : List BucketBackup) : Prop :=
  ∀ b ∈ bs, b.dbName = d ∧ b.Placed ∧ (b.installationID ≠ "" → Attested content target b)

variable {state : PrefixState} {bs : List BucketBackup}

theorem Refilled.mem_prefixes (h : Refilled target state bs w w') :
    ∃ p₀ : PrefixState, { p₀ with reconciledAt := 0 } = { state with reconciledAt := 0 } ∧
      ∀ p, p ∈ w'.db.prefixes ↔ p = (target, p₀) ∨
        (p ∈ w.db.prefixes ∧ (p.1, p.2.dbName) ≠ (target, state.dbName)) := by
  obtain ⟨now, hprefixes⟩ := h.prefixes
  refine ⟨{ state with reconciledAt := unix now }, rfl, fun p => ?_⟩
  rw [hprefixes]
  exact Table.mem_upsert

theorem Coherent.refill (h : Coherent content w) (hfill : Refilled target state bs w w')
    (hbs : Recordables content target state.dbName bs) : Coherent content w' := by
  have hold : ∀ r ∈ w'.db.bucketBackups, _ := fun r hr =>
    Database.mem_replaceRows (hfill.view ▸ hr)
  refine ⟨?_, ?_, ?_, ?_⟩
  · intro r hr howner
    rcases hold r hr with ⟨b, hb, k, rfl, -⟩ | ⟨hr', -⟩
    · exact ((hbs b hb).2.2 howner).marked k
    · exact h.attested r hr' howner
  · intro r hr
    rcases hold r hr with ⟨b, hb, k, rfl, -⟩ | ⟨hr', -⟩
    · exact (hbs b hb).2.1
    · exact h.placed r hr'
  · rw [hfill.view]
    exact Database.nodup_replaceRows h.keys
  · intro r hr
    obtain ⟨p₀, hp₀, hmem⟩ := hfill.mem_prefixes
    have hname : p₀.dbName = state.dbName := by
      have hsame := congrArg PrefixState.dbName hp₀
      exact hsame
    rcases hold r hr with ⟨b, hb, k, rfl, -⟩ | ⟨hr', -⟩
    · exact ⟨p₀, (hmem _).mpr (Or.inl rfl), hname.trans (hbs b hb).1.symm⟩
    · obtain ⟨p, hp, hfolder⟩ := h.folders r hr'
      by_cases hkey : (r.1, p.dbName) = (target, state.dbName)
      · obtain ⟨htarget, hdb⟩ := Prod.mk.inj hkey
        refine ⟨p₀, (hmem _).mpr (Or.inl (by rw [htarget])), ?_⟩
        exact hname.trans (hdb.symm.trans hfolder)
      · exact ⟨p, (hmem _).mpr (Or.inr ⟨hp, hkey⟩), hfolder⟩

theorem Elsewhere.refill (h : Elsewhere target w₀ w) (hfill : Refilled target state bs w w') :
    Elsewhere target w₀ w' := by
  constructor
  · intro r hr
    rw [← h.rows r hr, hfill.view]
    constructor
    · intro hmem
      rcases Database.mem_replaceRows hmem with ⟨b, hb, k, rfl, -⟩ | ⟨hr', -⟩
      · exact absurd rfl hr
      · exact hr'
    · intro hmem
      apply Database.mem_replaceRows_of_other hmem
      · intro b _ hkey
        exact hr (Prod.mk.inj hkey).1
      · intro r' _ _ hkey htarget
        exact hr ((Prod.mk.inj hkey).1.symm.trans htarget)
  · intro p hp
    obtain ⟨p₀, -, hmem⟩ := hfill.mem_prefixes
    rw [← h.counts p hp, hmem]
    constructor
    · intro hor
      rcases hor with rfl | ⟨hold, -⟩
      · exact absurd rfl hp
      · exact hold
    · exact fun hold => Or.inr ⟨hold, fun hkey => hp (Prod.mk.inj hkey).1⟩

/-- The rule for recording a folder. -/
theorem refill_among {now : Instant} (hbs : Recordables content target state.dbName bs) :
    Safe (among content (Keeping content target w₀)) (store (.replacePrefix target state bs now))
      (fun r w' => Grew Event.Silent w w' ∧ (r = .ok () → Refilled target state bs w w')) w := by
  apply among_ask
  intro w₁ r w₂ hu hi ⟨⟨hlog, heff⟩, _⟩
  have hgrew : Grew Event.Silent w w₂ := by
    refine ⟨_, ?_, silent_observeStore (.replacePrefix target state bs now) w₁.db r⟩
    rw [hlog, hu.log]
  rcases heff with ⟨a, hrun, rfl⟩ | ⟨⟨e, rfl⟩, hdb⟩
  · have hdb : w₂.db = w₁.db.replacePrefix target state bs now := StoreCall.write_eq_ok.mp hrun
    have hview : w₂.db.bucketBackups =
        Database.replaceRows target state.dbName bs w₁.db.bucketBackups := by rw [hdb]; rfl
    have hprefixes : w₂.db.prefixes = Database.replaceState target state now w₁.db.prefixes := by
      rw [hdb]; rfl
    have hfill : Refilled target state bs w₁ w₂ := ⟨hview, now, hprefixes⟩
    refine ⟨⟨hi.coherent.refill hfill hbs, hi.elsewhere.refill hfill⟩, fun w' hu' _ => ?_⟩
    refine ⟨hgrew.trans hu'.still.grew, fun _ => ⟨?_, now, ?_⟩⟩
    · rw [hu'.view, hview, hu.view]
    · rw [hu'.prefixes, hprefixes, hu.prefixes]
  · refine ⟨hi.congr (by rw [hdb]) (by rw [hdb]), fun w' hu' _ => ?_⟩
    exact ⟨hgrew.trans hu'.still.grew, fun h => nomatch h⟩

end

/-! ### Recording a folder -/

section
variable {content : Holdings} {s : Settings} {d : Text} {w₀ w w' : World}

/-- The rule for a listing, which may answer anything. -/
theorem list_among {target root : Text} {recursive : Bool} :
    Safe (among content (Keeping content target w₀)) (bucket s (.listObjects root recursive))
      (fun r w' => w'.db.bucketBackups = w.db.bucketBackups ∧ w'.db.prefixes = w.db.prefixes ∧
        w'.log = .listed root r :: w.log) w := by
  apply among_ask
  intro w₁ r w₂ hu hi ⟨⟨hlog, hdb⟩, _⟩
  have hdb : w₂.db = w₁.db := hdb
  refine ⟨hi.congr (by rw [hdb]) (by rw [hdb]), fun w' hu' _ => ⟨?_, ?_, ?_⟩⟩
  · rw [hu'.view, hdb, hu.view]
  · rw [hu'.prefixes, hdb, hu.prefixes]
  · rw [hu'.log, hlog, hu.log]
    rfl

theorem readEntry_among {I : World → Prop} (hI : Lasts I) {recorded : List BucketBackup}
    {objects : List Object} {e : Entry} (hd : validDatabaseSegment d = true)
    (he : e ∈ entriesFrom (s.databaseRoot d) objects)
    (hrecorded : Recordables content s.target d recorded) :
    Safe (among content I) (readEntry s recorded d e) (fun b w' =>
      Still w w' ∧ b = freshRow content s d e) w := by
  unfold readEntry
  split
  · next hstate =>
    cases hk : knownOwner recorded e.manifestKey with
    | some previous =>
      apply Safe.ret
      intro w' hu _
      refine ⟨hu.still, ?_⟩
      -- what was recorded is what the manifest says
      obtain ⟨hmem, hkey, howner⟩ := knownOwner_eq_some hk
      obtain ⟨-, hplaced, hattested⟩ := hrecorded previous hmem
      have harchive := hplaced.archiveKey_eq ((rowOf_row d e).placed he) hkey
      exact withRecorded_eq_freshRow hd he hstate hkey harchive (hattested howner)
    | none =>
      apply Safe.bind
      apply (readManifest_among hI).mono
      intro r w₁ ⟨hstill, hr⟩
      apply Safe.ret
      intro w' hu _
      refine ⟨hstill.trans hu.still, ?_⟩
      rw [freshRow, if_pos hstate, hr]
  · next hstate =>
    apply Safe.ret
    intro w' hu _
    refine ⟨hu.still, ?_⟩
    rw [freshRow, if_neg hstate]

theorem readEntries_among {I : World → Prop} (hI : Lasts I) {recorded : List BucketBackup}
    {objects : List Object} {es : List Entry} (hd : validDatabaseSegment d = true)
    (hes : ∀ e ∈ es, e ∈ entriesFrom (s.databaseRoot d) objects)
    (hrecorded : Recordables content s.target d recorded) :
    Safe (among content I) (readEntries s recorded d es) (fun bs w' =>
      Still w w' ∧ bs = es.map (freshRow content s d)) w := by
  induction es generalizing w with
  | nil => exact Safe.ret (fun w' hu _ => ⟨hu.still, rfl⟩)
  | cons e es ih =>
    apply Safe.bind
    apply (readEntry_among hI hd (hes e List.mem_cons_self) hrecorded).mono
    intro b w₁ ⟨hstill₁, hb⟩
    apply Safe.bind
    apply (ih (fun e' he' => hes e' (List.mem_cons_of_mem e he'))).mono
    intro bs w₂ ⟨hstill₂, hbs⟩
    apply Safe.ret
    intro w' hu _
    refine ⟨(hstill₁.trans hstill₂).trans hu.still, ?_⟩
    rw [hb, hbs]
    rfl

theorem recordables_freshRows (hd : validDatabaseSegment d = true) (objects : List Object) :
    Recordables content s.target d (freshRows content s d objects) := by
  intro b hb
  rw [freshRows_eq] at hb
  obtain ⟨e, he, rfl⟩ := List.mem_map.mp hb
  have hrow : RowOf d e (freshRow content s d e) := rowOf_freshRow e
  exact ⟨hrow.dbName, hrow.placed he, fun howner => attested_freshRow hd he (Or.inl howner)⟩

/-- A folder was listed and recorded with the rows computed from its listing. -/
structure Relisted (content : Holdings) (s : Settings) (d : Text) (w w' : World) : Prop where
  valid : validDatabaseSegment d = true
  written : ∃ objects,
    (∀ root, w'.heard root = if s.databaseRoot d = root then objects else w.heard root) ∧
    Refilled s.target (folderState d (freshRows content s d objects))
      (freshRows content s d objects) w w'

theorem reconcilePrefix_among :
    Safe (among content (Keeping content s.target w₀)) (reconcilePrefix s s.target d)
      (fun r w' => r = .ok () → Relisted content s d w w') w := by
  apply Safe.bindAction
  unfold listBackups
  by_cases hd : validDatabaseSegment d = true
  · simp only [hd, Bool.not_true, Bool.false_eq_true, if_false]
    apply Safe.bindAction
    apply list_among.mono
    intro r w₁ ⟨hview₁, hprefixes₁, hlog₁⟩
    cases r with
    | error e => exact Safe.ret (fun _ _ _ => Safe.ret (fun _ _ _ h => nomatch h))
    | ok objects =>
      apply Safe.ret
      intro w₂ hu₂ _
      apply Safe.bindAction
      apply (among_read keeping_lasts (fun _ => rfl)).mono
      intro r w₃ ⟨hstill₃, hi₃, hrows⟩
      cases r with
      | error e => exact Safe.ret (fun _ _ _ h => nomatch h)
      | ok recorded =>
        have hrecorded : Recordables content s.target d recorded := by
          obtain ⟨db, hview, -, rfl⟩ := hrows recorded rfl
          intro b hb
          obtain ⟨hmem, hfolder⟩ := Database.mem_prefixBackups.mp hb
          rw [hview, ← hstill₃.view] at hmem
          exact ⟨hfolder, hi₃.coherent.placed _ hmem, hi₃.coherent.attested _ hmem⟩
        apply Safe.bindAction
        apply Safe.lift
        apply (readEntries_among keeping_lasts hd (fun _ he => he) hrecorded).mono
        intro bs w₄ ⟨hstill₄, hbs⟩
        rw [← freshRows_eq] at hbs
        subst hbs
        apply Safe.ret
        intro w₅ hu₅ _
        apply Safe.bindAction
        apply (among_clock keeping_lasts).mono
        intro r w₆ ⟨hstill₆, now, hnow⟩
        subst hnow
        have hstill : Still w₁ w₆ :=
          (((hu₂.still.trans hstill₃).trans hstill₄).trans hu₅.still).trans hstill₆
        have hfresh : Recordables content s.target
            (folderState d (freshRows content s d objects)).dbName
            (freshRows content s d objects) := recordables_freshRows hd objects
        apply (refill_among hfresh).mono
        intro r w₇ ⟨hgrew₇, hfill⟩ hr
        refine ⟨hd, objects, fun root => ?_, ?_⟩
        · rw [hgrew₇.heard, hstill.grew.heard, World.heard_listed hlog₁]
        · obtain ⟨hview, now', hprefixes⟩ := hfill hr
          refine ⟨?_, now', ?_⟩
          · rw [hview, hstill.view, hview₁]
          · rw [hprefixes, hstill.prefixes, hprefixes₁]
  · simp only [hd, Bool.not_false, if_true]
    exact Safe.ret (fun _ _ _ => Safe.ret (fun _ _ _ h => nomatch h))

end

/-! ### Recording all folders -/

/-- A folder has these rows, up to delete markers, and their counts. -/
structure FolderShown (s : Settings) (d : Text) (bs : List BucketBackup) (w : World) : Prop where
  rows : Shows w.db.bucketBackups s.target d bs
  counted : ∃ p, (s.target, p) ∈ w.db.prefixes ∧ p.dbName = d
  counts : ∀ p, (s.target, p) ∈ w.db.prefixes → p.dbName = d →
    { p with reconciledAt := 0 } = folderState d bs

section
variable {content : Holdings} {s : Settings} {d : Text} {w₀ w w' : World}

theorem inFolder_freshRows {objects : List Object} {b : BucketBackup}
    (hb : b ∈ freshRows content s d objects) : InFolder s d b := by
  obtain ⟨e, he, hrow⟩ := Table.exists_left (forall₂_freshRows objects) hb
  exact hrow.inFolder he

/-- The folders of two databases are different ones. -/
theorem databaseRoot_inj {d d' : Text} (hd : validDatabaseSegment d = true)
    (hd' : validDatabaseSegment d' = true) (h : s.databaseRoot d = s.databaseRoot d') : d = d' := by
  rw [databaseRoot_eq s hd, databaseRoot_eq s hd', List.append_assoc, List.append_assoc] at h
  exact List.append_cancel_right (List.append_cancel_left h)

theorem databaseRoot_ne_backupsRoot (hd : validDatabaseSegment d = true) :
    s.databaseRoot d ≠ s.backupsRoot := by
  intro h
  rw [databaseRoot_eq s hd, List.append_assoc] at h
  have hnil := List.append_right_eq_self.mp h
  simp at hnil

/-- The folder that was recorded. -/
theorem Relisted.own (h : Relisted content s d w w') :
    FolderShown s d (freshRows content s d (w'.heard (s.databaseRoot d))) w' := by
  obtain ⟨objects, hheard, hfill⟩ := h.written
  rw [hheard, if_pos rfl]
  obtain ⟨p₀, hp₀, hmem⟩ := hfill.mem_prefixes
  have hname : p₀.dbName = d := by
    have hsame := congrArg PrefixState.dbName hp₀
    exact hsame
  refine ⟨?_, ⟨p₀, (hmem _).mpr (Or.inl rfl), hname⟩, ?_⟩
  · rw [hfill.view]
    apply shows_replaceRows (rowOf_keys_nodup (forall₂_freshRows objects))
    exact fun b hb => (recordables_freshRows h.valid objects b hb).1
  · intro p hp hfolder
    rcases (hmem _).mp hp with heq | ⟨-, hne⟩
    · rw [(Prod.mk.inj heq).2]
      exact hp₀
    · exact absurd (congrArg (Prod.mk s.target) hfolder) hne

/-- A folder that was not recorded is as it was. -/
theorem Relisted.other (h : Relisted content s d w w') {d' : Text}
    (hd' : validDatabaseSegment d' = true) (hne : d ≠ d')
    (hshown : FolderShown s d' (freshRows content s d' (w.heard (s.databaseRoot d'))) w) :
    FolderShown s d' (freshRows content s d' (w'.heard (s.databaseRoot d'))) w' := by
  obtain ⟨objects, hheard, hfill⟩ := h.written
  rw [hheard, if_neg (fun heq => hne (databaseRoot_inj h.valid hd' heq))]
  obtain ⟨p₀, hp₀, hmem⟩ := hfill.mem_prefixes
  refine ⟨?_, ?_, ?_⟩
  · rw [hfill.view]
    apply hshown.rows.other hne
    · exact fun b hb => (recordables_freshRows h.valid objects b hb).1
    · intro b hb b' hb'
      exact InFolder.key_ne hd' h.valid hne (inFolder_freshRows hb) (inFolder_freshRows hb')
  · obtain ⟨p, hp, hfolder⟩ := hshown.counted
    refine ⟨p, (hmem _).mpr (Or.inr ⟨hp, fun hkey => ?_⟩), hfolder⟩
    exact hne ((Prod.mk.inj hkey).2.symm.trans hfolder)
  · intro p hp hfolder
    rcases (hmem _).mp hp with heq | ⟨hold, -⟩
    · have hsame := congrArg PrefixState.dbName hp₀
      rw [(Prod.mk.inj heq).2] at hfolder
      exact absurd (hsame.symm.trans hfolder) hne
    · exact hshown.counts p hold hfolder

theorem World.valid_of_mem_names (hd : d ∈ w.names s) : validDatabaseSegment d = true := by
  have hmem := (List.perm_insertionSort _ _).mem_iff.mp hd
  have hcond := (List.mem_filter.mp hmem).2
  rw [Bool.and_eq_true] at hcond
  exact hcond.2

/-- Of the folders listed, all but `rest` are recorded; no other has rows, and
    those that are gone have their counts at zero. -/
structure RecordedBut (content : Holdings) (s : Settings) (rest : List Text) (w : World) :
    Prop where
  done : ∀ d ∈ w.names s, d ∉ rest →
    FolderShown s d (freshRows content s d (w.heard (s.databaseRoot d))) w
  rows : ∀ b, (s.target, b) ∈ w.db.bucketBackups → b.dbName ∈ w.names s
  gone : ∀ p, (s.target, p) ∈ w.db.prefixes → p.dbName ∉ w.names s →
    { p with reconciledAt := 0 } = folderState p.dbName []

theorem Relisted.names (h : Relisted content s d w w') : w'.names s = w.names s := by
  obtain ⟨objects, hheard, -⟩ := h.written
  unfold World.names
  rw [hheard, if_neg (databaseRoot_ne_backupsRoot h.valid)]

theorem RecordedBut.step {rest : List Text} (h : RecordedBut content s (d :: rest) w)
    (hd : d ∈ w.names s) (hstep : Relisted content s d w w') : RecordedBut content s rest w' := by
  have hnames := hstep.names
  refine ⟨?_, ?_, ?_⟩ <;> rw [hnames]
  · intro d' hd' hrest
    by_cases hsame : d = d'
    · subst hsame
      exact hstep.own
    · have hnot : d' ∉ d :: rest := by
        intro hmem
        rcases List.mem_cons.mp hmem with heq | hmem
        · exact hsame heq.symm
        · exact hrest hmem
      exact hstep.other (World.valid_of_mem_names hd') hsame (h.done d' hd' hnot)
  · intro b hb
    obtain ⟨objects, -, hfill⟩ := hstep.written
    rw [hfill.view] at hb
    rcases Database.mem_replaceRows hb with ⟨b₀, hb₀, k, hrow, -⟩ | ⟨hold, -⟩
    · rw [(Prod.mk.inj hrow).2]
      have hfolder := (recordables_freshRows hstep.valid objects b₀ hb₀).1
      exact hfolder.symm ▸ hd
    · exact h.rows b hold
  · intro p hp hnot
    obtain ⟨objects, -, hfill⟩ := hstep.written
    obtain ⟨p₀, hp₀, hmem⟩ := hfill.mem_prefixes
    rcases (hmem _).mp hp with heq | ⟨hold, -⟩
    · have hsame := congrArg PrefixState.dbName hp₀
      rw [(Prod.mk.inj heq).2] at hnot
      exact absurd (hsame.symm ▸ hd) hnot
    · exact h.gone p hold hnot

theorem Still.names (h : Still w w') : w'.names s = w.names s := by
  rw [World.names, World.names, h.grew.heard]

theorem RecordedBut.still {rest : List Text} (h : RecordedBut content s rest w)
    (hstill : Still w w') : RecordedBut content s rest w' := by
  have hnames : w'.names s = w.names s := hstill.names
  refine ⟨?_, ?_, ?_⟩ <;> rw [hnames]
  · intro d hd hrest
    obtain ⟨hrows, hcounted, hcounts⟩ := h.done d hd hrest
    rw [hstill.grew.heard]
    exact ⟨hstill.view ▸ hrows, hstill.prefixes ▸ hcounted, hstill.prefixes ▸ hcounts⟩
  · rw [hstill.view]
    exact h.rows
  · rw [hstill.prefixes]
    exact h.gone

theorem reconcilePrefixes_among {names : List Text} {failure : Option Err} :
    Safe (among content (Keeping content s.target w₀)) (reconcilePrefixes s s.target names failure)
      (fun r w' => r = none → failure = none ∧ ((∀ d ∈ names, d ∈ w.names s) →
        RecordedBut content s names w → RecordedBut content s [] w')) w := by
  induction names generalizing failure w with
  | nil => exact Safe.ret (fun w' hu _ hr => ⟨hr, fun _ h => h.still hu.still⟩)
  | cons d rest ih =>
    apply Safe.bind
    apply reconcilePrefix_among.mono
    intro r w₁ h₁
    cases r with
    | error e =>
      -- a failure is never forgotten
      apply ih.mono
      intro r w' h hr
      cases (h hr).1
    | ok u =>
      have hstep := h₁ rfl
      apply ih.mono
      intro r w' h hr
      obtain ⟨hf, hrest⟩ := h hr
      refine ⟨hf, fun hnames hbut => ?_⟩
      rw [hstep.names] at hrest
      exact hrest (fun d' hd' => hnames d' (List.mem_cons_of_mem d hd'))
        (hbut.step (hnames d List.mem_cons_self) hstep)

end

/-! ### Folders that have vanished -/

/-- Outside the folders listed, only those of `rest` have rows or counts left. -/
structure LeftOnly (s : Settings) (present rest : List Text) (w : World) : Prop where
  rows : ∀ b, (s.target, b) ∈ w.db.bucketBackups → b.dbName ∈ present ∨ b.dbName ∈ rest
  gone : ∀ p, (s.target, p) ∈ w.db.prefixes → p.dbName ∈ present ∨ p.dbName ∈ rest ∨
    { p with reconciledAt := 0 } = folderState p.dbName []

section
variable {content : Holdings} {s : Settings} {w₀ w w' : World} {present rest : List Text}

theorem LeftOnly.congr (h : LeftOnly s present rest w)
    (hview : w'.db.bucketBackups = w.db.bucketBackups)
    (hprefixes : w'.db.prefixes = w.db.prefixes) : LeftOnly s present rest w' :=
  ⟨hview ▸ h.rows, hprefixes ▸ h.gone⟩

theorem LeftOnly.step {d : Text} (h : LeftOnly s present (d :: rest) w)
    (hfill : Refilled s.target { dbName := d } [] w w') : LeftOnly s present rest w' := by
  constructor
  · intro b hb
    rw [hfill.view] at hb
    rcases Database.mem_replaceRows hb with ⟨b₀, hb₀, -⟩ | ⟨hold, hfolder, -⟩
    · cases hb₀
    · refine (h.rows b hold).imp_right (fun hmem => ?_)
      exact (List.mem_cons.mp hmem).resolve_left (fun hd => hfolder ⟨rfl, hd⟩)
  · intro p hp
    obtain ⟨p₀, hp₀, hmem⟩ := hfill.mem_prefixes
    rcases (hmem _).mp hp with heq | ⟨hold, hne⟩
    · rw [(Prod.mk.inj heq).2]
      have hsame := congrArg PrefixState.dbName hp₀
      right; right
      rw [hp₀, show p₀.dbName = d from hsame]
      rfl
    · refine (h.gone p hold).imp_right (fun hor => hor.imp_left (fun hmem => ?_))
      refine (List.mem_cons.mp hmem).resolve_left (fun hd => hne ?_)
      exact congrArg (Prod.mk s.target) hd

/-- A folder with rows or counts is listed, or among those to be emptied. -/
theorem leftOnly_start {db : Database} (h : Coherent content w)
    (hprefixes : db.prefixes = w.db.prefixes) :
    LeftOnly s present ((db.prefixNames s.target).filter (· ∉ present)) w := by
  have hsplit : ∀ d, (∃ p, (s.target, p) ∈ w.db.prefixes ∧ p.dbName = d) →
      d ∈ present ∨ d ∈ (db.prefixNames s.target).filter (· ∉ present) := by
    intro d ⟨p, hp, hfolder⟩
    by_cases hd : d ∈ present
    · exact Or.inl hd
    · refine Or.inr (List.mem_filter.mpr ⟨?_, decide_eq_true hd⟩)
      exact Database.mem_prefixNames.mpr ⟨(s.target, p), hprefixes ▸ hp, rfl, hfolder⟩
  refine ⟨fun b hb => hsplit _ (h.folders _ hb), fun p hp => ?_⟩
  rcases hsplit _ ⟨p, hp, rfl⟩ with hd | hd
  · exact Or.inl hd
  · exact Or.inr (Or.inl hd)

theorem tombstonePrefixes_among {now : Instant} :
    Safe (among content (Keeping content s.target w₀)) (tombstonePrefixes s.target present now)
      (fun r w' => r = .ok () → LeftOnly s present [] w' ∧ w'.heard = w.heard) w := by
  apply Safe.bindAction
  apply (among_read keeping_lasts (fun _ => rfl)).mono
  intro r w₁ ⟨hstill₁, hi₁, hnames⟩
  cases r with
  | error e => exact Safe.ret (fun _ _ _ h => nomatch h)
  | ok names =>
    obtain ⟨db, -, hprefixes, rfl⟩ := hnames names rfl
    apply Safe.forEach (fun rest w₂ => LeftOnly s present rest w₂ ∧ w₂.heard = w.heard)
    · intro d rest w₂ ⟨hleft, hheard⟩
      have hnone : Recordables content s.target ({ dbName := d } : PrefixState).dbName [] := by
        intro b hb
        cases hb
      apply (refill_among hnone).mono
      intro r w₃ ⟨hgrew, hfill⟩
      cases r with
      | ok u => exact ⟨hleft.step (hfill rfl), hgrew.heard.trans hheard⟩
      | error e => exact Safe.ret (fun _ _ _ h => nomatch h)
    · intro w₂ ⟨hleft, hheard⟩
      apply Safe.ret
      intro w' hu _ _
      exact ⟨hleft.congr hu.view hu.prefixes, hu.still.grew.heard.trans hheard⟩
    · exact ⟨leftOnly_start hi₁.coherent (hprefixes.trans hstill₁.prefixes.symm),
        hstill₁.grew.heard⟩

/-- With the vanished folders emptied, all that is listed is still to be recorded. -/
theorem LeftOnly.recordedBut (h : LeftOnly s (w.names s) [] w) :
    RecordedBut content s (w.names s) w := by
  refine ⟨fun d hd hnot => absurd hd hnot, ?_, ?_⟩
  · intro b hb
    exact (h.rows b hb).resolve_right List.not_mem_nil
  · intro p hp hnot
    exact ((h.gone p hp).resolve_left hnot).resolve_left List.not_mem_nil

end

end Pgfy
