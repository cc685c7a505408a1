import Pgfy.Jobs.Alone

/-! # How a pass comes to a complete view

    The first half of a pass lists the folders of the store and records each of
    them. It is specified here once, for a pass that has the bucket to itself:
    the rows of every folder are made from the objects as they are, from what
    was recorded before, and from reads that failed.
-/

namespace Pgfy

open Calendar Storage Program

variable {allowed : ∀ ⦃β : Type⦄, Call β → Fault → Prop} {γ : Type} {steady : Orders → γ}
  {I : World → Prop} {w w' : World} {s : Settings} {d : Text} {e : Entry}
  {recorded : List BucketBackup}

/-! ### Listing and recording a folder -/

/-- The row a pass makes of a listed entry: as recorded before, as its stored
    manifest says, or damaged because a read failed. -/
inductive Classified (allowed : ∀ ⦃β : Type⦄, Call β → Fault → Prop) (w : World) (s : Settings)
    (recorded : List BucketBackup) (d : Text) (log : List Event) (e : Entry) : BucketBackup → Prop
  | unread (h : ¬ (e.state = .complete ∨ e.state = .manifestOnly)) :
      Classified allowed w s recorded d log e (e.row d)
  | known (h : e.state = .complete ∨ e.state = .manifestOnly) (previous : BucketBackup)
      (hk : knownOwner recorded e.manifestKey = some previous) :
      Classified allowed w s recorded d log e ((e.row d).withRecorded previous)
  | read (h : e.state = .complete ∨ e.state = .manifestOnly)
      (hk : knownOwner recorded e.manifestKey = none) (r : Except Err Manifest)
      (hr : ManifestRead w s e.manifestKey r log) :
      Classified allowed w s recorded d log e (classify (e.row d) e r)
  | failed (h : e.state = .complete ∨ e.state = .manifestOnly)
      (hk : knownOwner recorded e.manifestKey = none)
      (hf : Faulty allowed (.bucket s (.readBytes e.manifestKey))) :
      Classified allowed w s recorded d log e { e.row d with state := .damaged }

theorem Classified.rowOf {w : World} {log : List Event} {b : BucketBackup}
    (h : Classified allowed w s recorded d log e b) : RowOf d e b := by
  cases h with
  | unread h => exact rowOf_row d e
  | known h previous hk => exact rowOf_withRecorded d e previous
  | read h hk r hr => exact rowOf_classify d h r
  | failed h hk hf => exact ⟨rfl, rfl, rfl, rfl, rfl, Or.inr ⟨rfl, h⟩⟩

/-- What was noted stays noted while the pass goes on. -/
theorem Classified.mono {b : BucketBackup} {w₀ : World} {P : Event → Prop}
    (hP : ∀ {e}, P e → ¬ e.IsBegan) (hg : Grew P w w')
    (h : Classified allowed w₀ s recorded d w.log e b) :
    Classified allowed w₀ s recorded d w'.log e b := by
  cases h with
  | unread h => exact .unread h
  | known h previous hk => exact .known h previous hk
  | read h hk r hr =>
    exact .read h hk r ⟨hr.result, fun c entry hc he => hg.thisPass hP (hr.noted c entry hc he)⟩
  | failed h hk hf => exact .failed h hk hf

theorem ManifestRead.congr {key : Text} {r : Except Err Manifest} {log : List Event}
    (hobjects : w'.objects = w.objects) (h : ManifestRead w' s key r log) :
    ManifestRead w s key r log := by
  constructor
  · rw [← World.manifestAt_congr hobjects]
    exact h.result
  · intro c entry hc he
    exact h.noted c entry (by rw [World.content_congr hobjects]; exact hc) he

theorem readEntry_alone (hI : Lasting steady I) :
    Safe (alone allowed steady I) (readEntry s recorded d e) (fun b w' =>
      Unmoved steady w w' ∧ Classified allowed w s recorded d w'.log e b) w := by
  unfold readEntry
  split
  · next hstate =>
    cases hk : knownOwner recorded e.manifestKey with
    | some previous =>
      exact Safe.ret (fun w' hq _ => ⟨hq.unmoved, .known hstate previous hk⟩)
    | none =>
      apply Safe.bind
      apply (readManifest_alone hI).mono
      intro r w₁ ⟨hm, hread⟩
      apply Safe.ret
      intro w' hq _
      refine ⟨hm.trans hq.unmoved, ?_⟩
      rcases hread with hread | ⟨⟨err, rfl⟩, hf⟩
      · exact .read hstate hk r (hq.log ▸ hread)
      · exact .failed hstate hk hf
  · next hstate => exact Safe.ret (fun w' hq _ => ⟨hq.unmoved, .unread hstate⟩)

/-- Of the state, the row of an entry depends on the objects only. -/
theorem Classified.congr {b : BucketBackup} {log : List Event} (hobjects : w'.objects = w.objects)
    (h : Classified allowed w' s recorded d log e b) :
    Classified allowed w s recorded d log e b := by
  cases h with
  | unread h => exact .unread h
  | known h previous hk => exact .known h previous hk
  | read h hk r hr => exact .read h hk r (hr.congr hobjects)
  | failed h hk hf => exact .failed h hk hf

theorem readEntries_alone (hI : Lasting steady I) {w₀ : World} {es : List Entry}
    (h₀ : Unmoved steady w₀ w) :
    Safe (alone allowed steady I) (readEntries s recorded d es) (fun bs w' =>
      Unmoved steady w w' ∧ List.Forall₂ (Classified allowed w₀ s recorded d w'.log) es bs) w := by
  induction es generalizing w with
  | nil => exact Safe.ret (fun w' hq _ => ⟨hq.unmoved, .nil⟩)
  | cons e rest ih =>
    apply Safe.bind
    apply (readEntry_alone hI).mono
    intro b w₁ ⟨hm₁, hb⟩
    apply Safe.bind
    apply (ih (h₀.trans hm₁)).mono
    intro bs w₂ ⟨hm₂, hbs⟩
    apply Safe.ret
    intro w' hq _
    have hlater : Unmoved steady w₁ w' := hm₂.trans hq.unmoved
    refine ⟨hm₁.trans hlater, .cons ?_ (hq.log ▸ hbs)⟩
    exact (hb.congr (World.objects_of_core h₀.core)).mono Event.Plain.not_began hlater.grew

/-- A folder that was listed, or a reason why not. -/
theorem listBackups_alone (hI : Lasting steady I) :
    Safe (alone allowed steady I) (listBackups s d) (fun r w' => Unmoved steady w w' ∧
      ((r = .ok (w.entries s d) ∧ validDatabaseSegment d = true) ∨ ((∃ e, r = .error e) ∧
        (SomeFault allowed ∨ validDatabaseSegment d = false)))) w := by
  unfold listBackups
  by_cases hd : validDatabaseSegment d = true
  · simp only [hd, Bool.not_true, Bool.false_eq_true, if_false]
    apply Safe.bindAction
    apply (alone_list hI).mono
    intro r w₁ ⟨hm, hr⟩
    rcases hr with rfl | ⟨⟨e, rfl⟩, hf⟩
    · exact Safe.ret (fun w' hq _ => ⟨hm.trans hq.unmoved, Or.inl ⟨rfl, trivial⟩⟩)
    · exact Safe.ret (fun w' hq _ =>
        ⟨hm.trans hq.unmoved, Or.inr ⟨⟨e, rfl⟩, Or.inl hf.some⟩⟩)
  · simp only [hd, Bool.not_false, if_true]
    exact Safe.ret (fun w' hq _ => ⟨hq.unmoved, Or.inr ⟨⟨_, rfl⟩, Or.inr (by simp)⟩⟩)

/-- The rows a pass makes of a folder as it is in `w`. -/
def FolderRows (allowed : ∀ ⦃β : Type⦄, Call β → Fault → Prop) (w : World) (s : Settings) (d : Text)
    (log : List Event) (bs : List BucketBackup) : Prop :=
  List.Forall₂ (Classified allowed w s (w.db.prefixBackups s.target d) d log) (w.entries s d) bs

/-- Time has passed, and the pass is still the same. -/
structure Later {γ : Type} (steady : Orders → γ) (w w' : World) : Prop where
  clock : w.clock ≤ w'.clock
  grew : Grew (fun e => ¬ e.IsBegan) w w'
  orders : steady w'.orders = steady w.orders

theorem Later.trans {w₁ w₂ w₃ : World} (h : Later steady w₁ w₂) (h' : Later steady w₂ w₃) :
    Later steady w₁ w₃ :=
  ⟨h.clock.trans h'.clock, h.grew.trans h'.grew,
    h'.orders.trans h.orders⟩

theorem Unmoved.later (h : Unmoved steady w w') : Later steady w w' := by
  obtain ⟨new, hlog, hnew⟩ := h.grew
  exact ⟨h.clock, ⟨new, hlog, fun e he => (hnew e he).not_began⟩, h.orders⟩

/-- The folder `d` of a store was recorded as it is in `w`. -/
structure FolderRecorded (allowed : ∀ ⦃β : Type⦄, Call β → Fault → Prop) {γ : Type}
    (steady : Orders → γ) (s : Settings) (d : Text) (w w' : World) : Prop where
  valid : validDatabaseSegment d = true
  later : Later steady w w'
  written : ∃ bs now, FolderRows allowed w s d w'.log bs ∧ w'.core = { w.core with
    view := Database.replaceRows s.target d bs w.core.view
    prefixes := Database.replaceState s.target (folderState d bs) now w.core.prefixes }

/-- The rows are made of the bucket and the view only. -/
theorem FolderRows.congr {log : List Event} {bs : List BucketBackup} (hm : Unmoved steady w w')
    (h : FolderRows allowed w s d log bs) : FolderRows allowed w' s d log bs := by
  have hobjects := World.objects_of_core hm.core
  unfold FolderRows at h ⊢
  rw [World.entries_congr hobjects, World.prefixBackups_congr (World.view_of_core hm.core)]
  exact h.imp (fun e b hb => hb.congr hobjects.symm)

/-- An invariant that survives the recording of a folder as it is. -/
def Recordable (allowed : ∀ ⦃β : Type⦄, Call β → Fault → Prop) (I : World → Prop) (s : Settings) :
    Prop :=
  ∀ w d bs now, I w → validDatabaseSegment d = true → FolderRows allowed w s d w.log bs →
    I (w.after (.replacePrefix s.target (folderState d bs) bs now)
      (·.replacePrefix s.target (folderState d bs) bs now))

theorem reconcilePrefix_alone (hI : Lasting steady I) (hrecord : Recordable allowed I s) :
    Safe (alone allowed steady I) (reconcilePrefix s s.target d) (fun r w' =>
      (r = .ok () ∧ FolderRecorded allowed steady s d w w') ∨
      ((∃ e, r = .error e) ∧ Unmoved steady w w' ∧
        (SomeFault allowed ∨ validDatabaseSegment d = false))) w := by
  apply Safe.bindAction
  apply (listBackups_alone hI).mono
  rintro r w₁ ⟨hm₁, hlist⟩
  rcases hlist with ⟨rfl, hvalid⟩ | ⟨⟨e, rfl⟩, hwhy⟩
  · apply Safe.bindAction
    apply (alone_read hI (fun _ => rfl) (by simp [observeStore, Event.Plain]) rfl).mono
    rintro r w₂ ⟨hm₂, hrows⟩
    rcases hrows with ⟨w₁', hm₁', rfl⟩ | ⟨⟨e, rfl⟩, hf⟩
    · have hrecorded : w₁'.db.prefixBackups s.target d = w.db.prefixBackups s.target d :=
        World.prefixBackups_congr (World.view_of_core (hm₁.trans hm₁').core) _ _
      have h₂ : Unmoved steady w w₂ := hm₁.trans hm₂
      apply Safe.bindAction
      apply Safe.lift
      apply (readEntries_alone hI h₂).mono
      rintro bs w₃ ⟨hm₃, hbs⟩
      apply Safe.ret
      intro w₃' hq₃ _
      apply Safe.bindAction
      apply (alone_clock hI).mono
      rintro r w₄ ⟨now, hr, hm₄, _⟩
      subst hr
      have h₄ : Unmoved steady w w₄ := ((h₂.trans hm₃).trans hq₃.unmoved).trans hm₄
      have hfolder : FolderRows allowed w s d w₄.log bs := by
        unfold FolderRows
        rw [← hrecorded]
        exact hbs.imp (fun e b hb =>
          hb.mono Event.Plain.not_began (hq₃.unmoved.trans hm₄).grew)
      have hkeep : ∀ w₁, Unmoved steady w₄ w₁ → w₁.log = w₄.log → I w₁ →
          I (w₁.after (.replacePrefix s.target (folderState d bs) bs now)
            (·.replacePrefix s.target (folderState d bs) bs now)) := by
        intro w₁ hm hlog hi
        apply hrecord w₁ d bs now hi hvalid
        rw [hlog]
        exact hfolder.congr (h₄.trans hm)
      apply (alone_write hI (fun _ => rfl) rfl hkeep).mono
      intro r w₅ hw
      cases hw with
      | @done w₄' _ look log quiet =>
        left
        have hlog : w₅.log = .recorded s.target d bs :: w₄.log := by
          rw [quiet.log, ← log]
          rfl
        have hcore : w₄'.core = w.core := (h₄.trans look).core
        refine ⟨rfl, hvalid, ⟨?_, ?_, ?_⟩, bs, now, ?_, ?_⟩
        · exact (h₄.trans look).clock.trans quiet.clock
        · apply (h₄.later.grew).trans
          exact ⟨[_], hlog, by simp [Event.IsBegan]⟩
        · exact quiet.orders.trans (h₄.trans look).orders
        · refine List.Forall₂.imp (fun e b hb => ?_) hfolder
          have hg : Grew (fun e => ¬ e.IsBegan) w₄ w₅ := ⟨[_], hlog, by simp [Event.IsBegan]⟩
          exact hb.mono (fun h => h) hg
        · rw [quiet.core, ← hcore]
          rfl
      | failed e fault look log =>
        exact Or.inr ⟨⟨e, rfl⟩, h₄.trans look, Or.inl fault.some⟩
    · exact Safe.ret (fun w' hq _ =>
        Or.inr ⟨⟨e, rfl⟩, (hm₁.trans hm₂).trans hq.unmoved, Or.inl hf.some⟩)
  · exact Safe.ret (fun w' hq _ => Or.inr ⟨⟨e, rfl⟩, hm₁.trans hq.unmoved, hwhy⟩)

/-- Folders recorded one after another, each as it was then. -/
inductive RecordedAll (allowed : ∀ ⦃β : Type⦄, Call β → Fault → Prop) {γ : Type}
    (steady : Orders → γ) (s : Settings) : List Text → World → World → Prop
  | nil {w w' : World} (h : Unmoved steady w w') : RecordedAll allowed steady s [] w w'
  | cons {d : Text} {names : List Text} {w w₁ w' : World}
      (h : FolderRecorded allowed steady s d w w₁)
      (rest : RecordedAll allowed steady s names w₁ w') :
      RecordedAll allowed steady s (d :: names) w w'

theorem reconcilePrefixes_alone (hI : Lasting steady I) (hrecord : Recordable allowed I s)
    {names : List Text} {failure : Option Err} :
    Safe (alone allowed steady I) (reconcilePrefixes s s.target names failure) (fun r w' =>
      (r = none → failure = none ∧ RecordedAll allowed steady s names w w') ∧
      (r ≠ none → failure ≠ none ∨ SomeFault allowed ∨
        ∃ d ∈ names, validDatabaseSegment d = false)) w := by
  induction names generalizing failure w with
  | nil =>
    apply Safe.ret
    intro w' hq _
    exact ⟨fun hr => ⟨hr, .nil hq.unmoved⟩, fun hr => Or.inl hr⟩
  | cons d names ih =>
    apply Safe.bind
    apply (reconcilePrefix_alone hI hrecord).mono
    intro r w₁ h₁
    rcases h₁ with ⟨rfl, hfolder⟩ | ⟨⟨e, rfl⟩, hm, hwhy⟩
    · apply ih.mono
      intro r w' ⟨hnone, hsome⟩
      refine ⟨fun hr => ⟨(hnone hr).1, .cons hfolder (hnone hr).2⟩, fun hr => ?_⟩
      rcases hsome hr with h | h | ⟨d', hd', h⟩
      · exact Or.inl h
      · exact Or.inr (Or.inl h)
      · exact Or.inr (Or.inr ⟨d', List.mem_cons_of_mem d hd', h⟩)
    · apply ih.mono
      intro r w' ⟨hnone, _⟩
      refine ⟨fun hr => ?_, fun _ => Or.inr ?_⟩
      · cases (hnone hr).1
      · rcases hwhy with h | h
        · exact Or.inl h
        · exact Or.inr ⟨d, List.mem_cons_self, h⟩

/-! ### Folders that have vanished -/

/-- The database folders a store has now. -/
def World.databases (w : World) (s : Settings) : List Text :=
  (((w.listing s.backupsRoot false).map (segmentBelow s.backupsRoot)).filter (fun n =>
    n ≠ [] && validDatabaseSegment n)).insertionSort (· ≤ ·)

theorem World.databases_congr {w w' : World} (h : w'.objects = w.objects) (s : Settings) :
    w'.databases s = w.databases s := by
  simp only [databases, listing, h]

theorem World.valid_of_mem_databases {w : World} (h : d ∈ w.databases s) :
    validDatabaseSegment d = true := by
  have hmem := (List.perm_insertionSort _ _).mem_iff.mp h
  have hd := (List.mem_filter.mp hmem).2
  rw [Bool.and_eq_true] at hd
  exact hd.2

/-- A folder that has an object is among the database folders. -/
theorem World.mem_databases {w : World} {d rest : Text} {c : Content}
    (hd : validDatabaseSegment d = true) (h : (s.databaseRoot d ++ rest, c) ∈ w.objects) :
    d ∈ w.databases s := by
  have hkey : s.databaseRoot d ++ rest = s.backupsRoot ++ (d ++ '/' :: rest) := by
    rw [databaseRoot_eq s hd]
    simp
  have hsplit : ∃ x xs, Text.split '/' (Text.trimPrefix s.backupsRoot (s.databaseRoot d ++ rest)) =
      d :: x :: xs := by
    rw [hkey, Text.trimPrefix_append, Text.split_append (segment_of_valid hd).slash]
    cases hrest : Text.split '/' rest with
    | nil => exact absurd hrest (List.splitOn_ne_nil '/' rest)
    | cons x xs => exact ⟨x, xs, rfl⟩
  obtain ⟨x, xs, hsplit⟩ := hsplit
  have hlisted : (⟨s.backupsRoot ++ d ++ ['/'], 0⟩ : Object) ∈ w.listing s.backupsRoot false := by
    unfold World.listing
    simp only [Bool.false_eq_true, if_false, List.mem_dedup, List.mem_map]
    refine ⟨_, List.mem_filter.mpr ⟨h, ?_⟩, ?_⟩
    · rw [hkey, List.isPrefixOf_iff_prefix]
      exact List.prefix_append _ _
    · rw [hsplit]
  apply (List.perm_insertionSort _ _).mem_iff.mpr
  refine List.mem_filter.mpr ⟨List.mem_map.mpr ⟨_, hlisted, ?_⟩, ?_⟩
  · show Text.trimSuffix ['/'] (Text.trimPrefix s.backupsRoot (s.backupsRoot ++ d ++ ['/'])) = d
    rw [List.append_assoc, Text.trimPrefix_append, Text.trimSuffix_append]
  · rw [Bool.and_eq_true]
    exact ⟨decide_eq_true (segment_of_valid hd).nonempty, hd⟩

/-- A complete directory is in a folder that is listed. -/
theorem World.mem_databases_of_holds {w : World} (hd : validDatabaseSegment d = true)
    (he : e ∈ w.entries s d) (h : w.Holds e) : d ∈ w.databases s := by
  obtain ⟨name, hname⟩ := entryOf_of_mem he
  obtain ⟨c, hobject⟩ := World.content_isSome.mp h.1
  rw [hname.manifestKey, List.append_assoc] at hobject
  exact World.mem_databases hd hobject

theorem listDatabases_alone (hI : Lasting steady I) :
    Safe (alone allowed steady I) (listDatabases s) (fun r w' => Unmoved steady w w' ∧
      (r = .ok (w.databases s) ∨ ((∃ e, r = .error e) ∧ SomeFault allowed))) w := by
  apply Safe.bindAction
  apply (alone_list hI).mono
  intro r w₁ ⟨hm, hr⟩
  rcases hr with rfl | ⟨⟨e, rfl⟩, hf⟩
  · exact Safe.ret (fun w' hq _ => ⟨hm.trans hq.unmoved, Or.inl rfl⟩)
  · exact Safe.ret (fun w' hq _ => ⟨hm.trans hq.unmoved, Or.inr ⟨⟨e, rfl⟩, hf.some⟩⟩)

/-- An invariant that survives the emptying of a folder that is not there. -/
def Emptiable (I : World → Prop) (s : Settings) : Prop :=
  ∀ w d now, I w → d ∉ w.databases s →
    I (w.after (.replacePrefix s.target { dbName := d } [] now)
      (·.replacePrefix s.target { dbName := d } [] now))

/-- Folders emptied one after another. -/
inductive EmptiedAll {γ : Type} (steady : Orders → γ) (s : Settings) :
    List Text → World → World → Prop
  | nil {w w' : World} (h : Unmoved steady w w') : EmptiedAll steady s [] w w'
  | cons {d : Text} {names : List Text} {w w₁ w' : World} (now : Instant)
      (later : Later steady w w₁)
      (core : w₁.core = { w.core with
        view := Database.replaceRows s.target d [] w.core.view
        prefixes := Database.replaceState s.target { dbName := d } now w.core.prefixes })
      (rest : EmptiedAll steady s names w₁ w') : EmptiedAll steady s (d :: names) w w'

theorem EmptiedAll.objects {names : List Text} (h : EmptiedAll steady s names w w') :
    w'.objects = w.objects := by
  induction h with
  | nil h => exact World.objects_of_core h.core
  | cons now later core rest ih => exact ih.trans (congrArg Core.objects core)

theorem EmptiedAll.history {names : List Text} (h : EmptiedAll steady s names w w') :
    w'.db.backups = w.db.backups := by
  induction h with
  | nil h => exact World.history_of_core h.core
  | cons now later core rest ih => exact ih.trans (congrArg Core.history core)

theorem FolderRecorded.objects (h : FolderRecorded allowed steady s d w w') :
    w'.objects = w.objects := by
  obtain ⟨bs, now, -, hcore⟩ := h.written
  exact congrArg Core.objects hcore

theorem RecordedAll.history {names : List Text} (h : RecordedAll allowed steady s names w w') :
    w'.db.backups = w.db.backups := by
  induction h with
  | nil h => exact World.history_of_core h.core
  | cons h rest ih =>
    obtain ⟨bs, now, -, hcore⟩ := h.written
    exact ih.trans (congrArg Core.history hcore)

theorem EmptiedAll.of_unmoved {names : List Text} {w₁ : World} (hm : Unmoved steady w w₁)
    (h : EmptiedAll steady s names w₁ w') : EmptiedAll steady s names w w' := by
  cases h with
  | nil h => exact .nil (hm.trans h)
  | cons now later core rest => exact .cons now (hm.later.trans later) (hm.core ▸ core) rest

/-- What a write that a fault did not stop has done to the rest of the state. -/
theorem Wrote.later {q : StoreCall Unit} {f : Database → Database} {w₁ : World}
    (look : Unmoved steady w w₁) (quiet : Quietly steady (w₁.after q f) w')
    (hbegan : ∀ e ∈ observeStore w₁.db q (), ¬ e.IsBegan)
    (horders : (w₁.after q f).orders = w₁.orders) : Later steady w w' := by
  apply look.later.trans
  refine ⟨quiet.clock, ⟨observeStore w₁.db q (), quiet.log, hbegan⟩, ?_⟩
  exact quiet.orders.trans (congrArg steady horders)

theorem emptyEach_alone (hI : Lasting steady I) (hempty : Emptiable I s) {now : Instant}
    {names : List Text} (hnames : ∀ d ∈ names, d ∉ w.databases s) :
    Safe (alone allowed steady I)
      (Action.forEach (fun d => store (.replacePrefix s.target { dbName := d } [] now)) names)
      (fun r w' => (r = .ok () ∧ EmptiedAll steady s names w w') ∨
        ((∃ e, r = .error e) ∧ SomeFault allowed)) w := by
  induction names generalizing w with
  | nil => exact Safe.ret (fun w' hq _ => Or.inl ⟨rfl, .nil hq.unmoved⟩)
  | cons d names ih =>
    have hkeep : ∀ w₁, Unmoved steady w w₁ → w₁.log = w.log → I w₁ →
        I (w₁.after (.replacePrefix s.target { dbName := d } [] now)
          (·.replacePrefix s.target { dbName := d } [] now)) := by
      intro w₁ hm _ hi
      apply hempty w₁ d now hi
      rw [World.databases_congr (World.objects_of_core hm.core)]
      exact hnames d List.mem_cons_self
    apply Safe.bindAction
    apply (alone_write hI (fun _ => rfl) rfl hkeep).mono
    intro r w₂ hw
    cases hw with
    | failed e fault look log =>
      exact Safe.ret (fun w' _ _ => Or.inr ⟨⟨e, rfl⟩, fault.some⟩)
    | @done w₁ _ look log quiet =>
      have hcore : w₂.core = { w.core with
          view := Database.replaceRows s.target d [] w.core.view
          prefixes := Database.replaceState s.target { dbName := d } now w.core.prefixes } := by
        rw [quiet.core, ← look.core]
        rfl
      have hrest : ∀ d' ∈ names, d' ∉ w₂.databases s := by
        intro d' hd'
        rw [World.databases_congr (congrArg Core.objects hcore : w₂.objects = w.objects)]
        exact hnames d' (List.mem_cons_of_mem d hd')
      apply (ih hrest).mono
      intro r w' h
      rcases h with ⟨rfl, hall⟩ | hfault
      · refine Or.inl ⟨rfl, .cons now (Wrote.later look quiet ?_ rfl) hcore hall⟩
        simp [observeStore, Event.IsBegan]
      · exact Or.inr hfault

theorem tombstonePrefixes_alone (hI : Lasting steady I) (hempty : Emptiable I s) {now : Instant} :
    Safe (alone allowed steady I) (tombstonePrefixes s.target (w.databases s) now) (fun r w' =>
      (r = .ok () ∧
        EmptiedAll steady s ((w.db.prefixNames s.target).filter (· ∉ w.databases s)) w w') ∨
      ((∃ e, r = .error e) ∧ SomeFault allowed)) w := by
  apply Safe.bindAction
  apply (alone_read hI (fun _ => rfl) (by simp [observeStore]) rfl).mono
  intro r w₂ ⟨hm₂, hnames⟩
  rcases hnames with ⟨w₁, hm₁, rfl⟩ | ⟨⟨e, rfl⟩, hf⟩
  · have hsame : w₁.db.prefixNames s.target = w.db.prefixNames s.target := by
      have hprefixes : w₁.db.prefixes = w.db.prefixes := congrArg Core.prefixes hm₁.core
      rw [Database.prefixNames, Database.prefixNames, hprefixes]
    rw [← hsame]
    have hgone : ∀ d ∈ (w₁.db.prefixNames s.target).filter (· ∉ w.databases s),
        d ∉ w₂.databases s := by
      intro d hd
      rw [World.databases_congr (World.objects_of_core hm₂.core)]
      exact of_decide_eq_true (List.mem_filter.mp hd).2
    apply (emptyEach_alone hI hempty hgone).mono
    intro r w' h
    rcases h with ⟨rfl, hall⟩ | hfault
    · exact Or.inl ⟨rfl, hall.of_unmoved hm₂⟩
    · exact Or.inr hfault
  · exact Safe.ret (fun w' _ _ => Or.inr ⟨⟨e, rfl⟩, hf.some⟩)

/-! ### Up to the complete view -/

/-- The state of a complete view: vanished folders are emptied, the others are
    recorded. -/
def Reconciled (allowed : ∀ ⦃β : Type⦄, Call β → Fault → Prop) {γ : Type}
    (steady : Orders → γ) (s : Settings) (w w' : World) : Prop :=
  ∃ w₁, EmptiedAll steady s ((w.db.prefixNames s.target).filter (· ∉ w.databases s)) w w₁ ∧
    RecordedAll allowed steady s (w.databases s) w₁ w'

theorem aside_activateStorageTarget (t : StorageTarget) :
    Aside (.activateStorageTarget t) (·.activateStorageTarget t) :=
  ⟨fun _ => rfl, rfl, fun w => ⟨rfl, le_rfl, ⟨[], rfl, by simp⟩, rfl⟩⟩

theorem aside_ensureTarget (target : Text) : Aside (.ensureTarget target) (·.ensureTarget target) :=
  ⟨fun _ => rfl, rfl, fun w => ⟨rfl, le_rfl, ⟨[], rfl, by simp⟩, rfl⟩⟩

theorem aside_recordReconciled (target : Text) (at_ : Instant) (lastError : String) :
    Aside (.recordReconciled target at_ lastError) (·.recordReconciled target at_ lastError) := by
  refine ⟨fun _ => rfl, rfl, fun w => ⟨rfl, le_rfl, ⟨_, rfl, ?_⟩, rfl⟩⟩
  intro e he
  simp only [observeStore] at he
  split at he
  · rw [List.mem_singleton.mp he]
    trivial
  · cases he

theorem aside_pruneJobs (before : Instant) : Aside (.pruneJobs before) (·.pruneJobs before) :=
  ⟨fun _ => rfl, rfl, fun w => ⟨rfl, le_rfl, ⟨[], rfl, by simp⟩, rfl⟩⟩

theorem setTargetReconciled_alone (hI : Lasting steady I) {target : Text} {at_ : Instant}
    {lastError : String} :
    Safe (alone allowed steady I) (setTargetReconciled target at_ lastError) (fun r w' =>
      Unmoved steady w w' ∧ (r = .ok () ∨ ((∃ e, r = .error e) ∧ SomeFault allowed))) w := by
  apply Safe.bindAction
  apply (alone_aside hI (aside_ensureTarget target)).mono
  intro r w₁ ⟨hm₁, hr⟩
  rcases hr with rfl | ⟨⟨e, rfl⟩, hf⟩
  · apply (alone_aside hI (aside_recordReconciled target at_ lastError)).mono
    intro r w₂ ⟨hm₂, hr⟩
    exact ⟨hm₁.trans hm₂, hr⟩
  · exact Safe.ret (fun w' hq _ => ⟨hm₁.trans hq.unmoved, Or.inr ⟨⟨e, rfl⟩, hf⟩⟩)

/-- A pass that gives up touches nothing more. -/
theorem abandonPass_alone (hI : Lasting steady I) {target : Text} {e : Err} :
    Safe (alone allowed steady I) (abandonPass target e) (fun r _ => ∃ e, r = .error e) w := by
  apply Safe.bindAction
  apply (alone_clock hI).mono
  intro r w₁ ⟨now, hr, _⟩
  subst hr
  apply Safe.bindAction
  apply Safe.lift
  apply (setTargetReconciled_alone hI).mono
  intro r w₂ _
  apply Safe.ret
  intro w₃ _ _
  exact Safe.ret (fun _ _ _ => ⟨e, rfl⟩)

theorem RecordedAll.unmoved {names : List Text} {w₁ : World}
    (h : RecordedAll allowed steady s names w w₁) (hm : Unmoved steady w₁ w') :
    RecordedAll allowed steady s names w w' := by
  induction h with
  | nil h => exact .nil (h.trans hm)
  | cons h rest ih => exact .cons h (ih hm)

/-- A pass reaches a complete view and goes on from there, or a fault was
    allowed. -/
theorem reconcile_alone (hI : Lasting steady I) {installationID : String}
    (hempty : Emptiable I s) (hrecord : Recordable allowed I s) {Q : World → Prop}
    (hafter : ∀ w', Reconciled allowed steady s w w' → I w' →
      Safe (alone allowed steady I) (afterReconcile s installationID (w.databases s))
        (fun _ => Q) w') :
    Safe (alone allowed steady I) (reconcile s installationID) (fun r w' =>
      (r = .ok () ∧ Q w') ∨ ((∃ e, r = .error e) ∧ SomeFault allowed)) w := by
  have hstop : ∀ {e : Err} {w₁ : World}, SomeFault allowed →
      Safe (alone allowed steady I) (abandonPass s.target e) (fun r w' =>
        (r = .ok () ∧ Q w') ∨ ((∃ e, r = .error e) ∧ SomeFault allowed)) w₁ :=
    fun hf => (abandonPass_alone hI).mono (fun r w' hr => Or.inr ⟨hr, hf⟩)
  apply Safe.bindAction
  apply (alone_aside hI (aside_activateStorageTarget _)).mono
  rintro r w₁ ⟨hm₁, hr⟩
  rcases hr with rfl | ⟨⟨e, rfl⟩, hf⟩
  · apply Safe.bindAction
    apply Safe.lift
    apply (listDatabases_alone hI).mono
    rintro r w₂ ⟨hm₂, hlist⟩
    apply Safe.ret
    intro w₃ hq₃ _
    have hm₃ : Unmoved steady w w₃ := (hm₁.trans hm₂).trans hq₃.unmoved
    rcases hlist with rfl | ⟨⟨e, rfl⟩, hf⟩
    · rw [World.databases_congr (World.objects_of_core hm₁.core)]
      apply Safe.bindAction
      apply (alone_clock hI).mono
      rintro r w₄ ⟨now, hr, hm₄, _⟩
      subst hr
      have h₄ : Unmoved steady w w₄ := hm₃.trans hm₄
      have hdatabases := World.databases_congr (World.objects_of_core h₄.core) s
      have hprefixes : w₄.db.prefixNames s.target = w.db.prefixNames s.target := by
        have hprefixes : w₄.db.prefixes = w.db.prefixes := congrArg Core.prefixes h₄.core
        rw [Database.prefixNames, Database.prefixNames, hprefixes]
      apply Safe.bindAction
      rw [← hdatabases]
      apply (tombstonePrefixes_alone hI hempty).mono
      intro r w₅ hempties
      rw [hdatabases, hprefixes] at hempties
      rw [hdatabases]
      rcases hempties with ⟨rfl, hempties⟩ | ⟨⟨e, rfl⟩, hf⟩
      · apply Safe.bindAction
        apply Safe.lift
        apply (reconcilePrefixes_alone hI hrecord).mono
        rintro r w₆ ⟨hnone, hsome⟩
        apply Safe.ret
        intro w₇ hq₇ _
        cases r with
        | some e =>
          apply hstop
          rcases hsome (by simp) with h | h | ⟨d, hd, hvalid⟩
          · exact absurd rfl h
          · exact h
          · rw [World.valid_of_mem_databases hd] at hvalid
            cases hvalid
        | none =>
          have hall := (hnone rfl).2
          apply Safe.bindAction
          apply (alone_clock hI).mono
          rintro r w₈ ⟨now, hr, hm₈, _⟩
          subst hr
          apply Safe.bindAction
          apply (setTargetReconciled_alone hI).mono
          rintro r w₉ ⟨hm₉, hr⟩
          have hmoved : Unmoved steady w₆ w₉ := (hq₇.unmoved.trans hm₈).trans hm₉
          rcases hr with rfl | ⟨⟨e, rfl⟩, hf⟩
          · apply Safe.of_later
            intro w₉' hq₉ hi₉
            have hview : Reconciled allowed steady s w w₉' :=
              ⟨w₅, hempties.of_unmoved h₄, hall.unmoved (hmoved.trans hq₉.unmoved)⟩
            apply Safe.lift
            apply (hafter w₉' hview hi₉).settled.mono
            intro r w' hQ
            exact Safe.ret (fun w'' hq hi => Or.inl ⟨rfl, hQ w'' hq hi⟩)
          · exact Safe.ret (fun w' _ _ => Or.inr ⟨⟨e, rfl⟩, hf⟩)
      · exact Safe.ret (fun w' _ _ => Or.inr ⟨⟨e, rfl⟩, hf⟩)
    · exact hstop hf
  · exact Safe.ret (fun w' _ _ => Or.inr ⟨⟨e, rfl⟩, hf⟩)

end Pgfy
