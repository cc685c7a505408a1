import Pgfy.Jobs.Retention

/-! # What a reconciliation pass runs against

    The state around the worker: its database, the objects of the bucket, the
    clock, and a log in which every call leaves what an observer could note.
    Two semantics of calls are given. Under `adversary` the bucket and the clock
    answer anything at all and any call may fail. Under `answers` the bucket is
    the one of the state and calls fail in the ways that are allowed; a removal
    may fail after it took effect.

    `answers` is the relation of an executable function `exec`, so single runs
    can be computed.
-/

namespace Pgfy

open Calendar Storage Program

/-! ### The log -/

/-- What can be noted of a pass from its calls and their answers. -/
inductive Event where
  /-- a pass over a store begins -/
  | began (s : Settings)
  | time (now : Instant)
  | listed (root : Text) (objects : Except Err (List Object))
  | read (s : Settings) (key : Text) (content : Except Err Content)
  /-- a key was passed to `Remove`, which returned success or not -/
  | removed (s : Settings) (key : Text) (ok : Bool)
  | protection (v : Versioning)
  /-- the rows of a folder were read -/
  | rows (target dbName : Text) (backups : List BucketBackup)
  /-- the rows of a folder were replaced by those of a listing -/
  | recorded (target dbName : Text) (backups : List BucketBackup)
  /-- the pass was recorded as complete -/
  | reconciled (target : Text)
  /-- the delete marker of a row was set -/
  | marked (target key : Text)
  /-- the delete marker of a row could not be set -/
  | unmarked (target key : Text)
  /-- a directory was found on a job; `jobs` is the table it was found in -/
  | claimed (target directory : Text) (before : Instant) (jobs : List Job)
  /-- history rows were dropped because the view has no complete row for them -/
  | forgot (target : Text) (dropped : List Backup)
deriving DecidableEq

/-- What a statement that succeeded leaves in the log. -/
def observeStore {β : Type} (db : Database) : StoreCall β → β → List Event
  | .prefixBackups target dbName, bs => [.rows target dbName bs]
  | .replacePrefix target state bs _, _ => [.recorded target state.dbName bs]
  | .recordReconciled target _ lastError, _ => if lastError = "" then [.reconciled target] else []
  | .markBackupDeleting target key _, _ => [.marked target key]
  | .abandonedUploadKey target key before, ours =>
    if ours then [.claimed target key before db.jobs] else []
  | .forgetLostLocalBackups target, _ => [.forgot target (db.lostBackups target)]
  | _, _ => []

/-- What a statement that failed leaves in the log. -/
def observeFailed {β : Type} : StoreCall β → List Event
  | .markBackupDeleting target key _ => [.unmarked target key]
  | _ => []

theorem mem_observeFailed {β : Type} {q : StoreCall β} {e : Event} (h : e ∈ observeFailed q) :
    ∃ target key, e = .unmarked target key := by
  cases q <;> simp [observeFailed] at h
  exact ⟨_, _, h⟩

/-- What a request to the bucket leaves in the log. -/
def observeBucket {β : Type} (s : Settings) : BucketCall β → Except Err β → List Event
  | .listObjects root _, r => [.listed root r]
  | .readBytes key, r => [.read s key r]
  | .putObject _ _, _ => []
  | .removeObject key, r => [.removed s key r.isOk]
  | .bucketVersioning, r =>
    match r with
    | .ok v => [.protection v]
    | .error _ => []

/-- What a call and its answer leave in the log. -/
def observe {β : Type} (db : Database) : Call β → β → List Event
  | .store q, r =>
    match r with
    | .ok a => observeStore db q a
    | .error _ => observeFailed q
  | .bucket s q, r => observeBucket s q r
  | .now, t => [.time t]
  | _, _ => []

def Event.IsBegan : Event → Prop
  | .began _ => True
  | _ => False

instance : DecidablePred Event.IsBegan := fun e => by
  cases e <;> unfold Event.IsBegan <;> infer_instance

/-- The part of a log that belongs to the pass under way. -/
def thisPass (log : List Event) : List Event := log.takeWhile (fun e => ¬ e.IsBegan)

/-- The store of the pass under way. -/
def passStore : List Event → Option Settings
  | [] => none
  | .began s :: _ => some s
  | _ :: log => passStore log

theorem thisPass_append {new log : List Event} (h : ∀ e ∈ new, ¬ e.IsBegan) :
    thisPass (new ++ log) = new ++ thisPass log := by
  apply List.takeWhile_append_of_pos
  intro e he
  exact decide_eq_true (h e he)

theorem passStore_append {new log : List Event} (h : ∀ e ∈ new, ¬ e.IsBegan) :
    passStore (new ++ log) = passStore log := by
  induction new with
  | nil => rfl
  | cons e new ih =>
    rw [List.cons_append, passStore, ih (fun e' he' => h e' (List.mem_cons_of_mem e he'))]
    -- only the beginning of a pass has an equation of its own
    intro s hs
    exact h e List.mem_cons_self (by rw [hs]; trivial)

/-! ### The state -/

structure World where
  db : Database := {}
  /-- the objects of the bucket, by key -/
  objects : List (Text × Content) := []
  versioning : Versioning := .enabled
  clock : Instant := 0
  /-- newest first -/
  log : List Event := []

/-- The state at the beginning of a pass. -/
def World.begin (w : World) (s : Settings) : World := { w with log := .began s :: w.log }

/-- The log has grown by events of one kind. -/
def Grew (P : Event → Prop) (w w' : World) : Prop :=
  ∃ new, w'.log = new ++ w.log ∧ ∀ e ∈ new, P e

section
variable {P : Event → Prop}

theorem Grew.refl (w : World) : Grew P w w := ⟨[], rfl, by simp⟩

theorem Grew.trans {w₁ w₂ w₃ : World} (h : Grew P w₁ w₂) (h' : Grew P w₂ w₃) : Grew P w₁ w₃ := by
  obtain ⟨new, hlog, hnew⟩ := h
  obtain ⟨new', hlog', hnew'⟩ := h'
  refine ⟨new' ++ new, by rw [hlog', hlog, List.append_assoc], ?_⟩
  intro e he
  rcases List.mem_append.mp he with he | he
  · exact hnew' e he
  · exact hnew e he

/-- What was noted in this pass stays so. -/
theorem Grew.thisPass {w w' : World} {e : Event} (hP : ∀ {e}, P e → ¬ e.IsBegan) (h : Grew P w w')
    (he : e ∈ thisPass w.log) : e ∈ thisPass w'.log := by
  obtain ⟨new, hlog, hnew⟩ := h
  rw [hlog, thisPass_append (fun e he => hP (hnew e he))]
  exact List.mem_append_right _ he

end

/-! ### An adversary -/

/-- What a call may do to the database: a statement that succeeds does what it
    says, everything else leaves the database alone. -/
def StoreEffect {β : Type} : Call β → β → Database → Database → Prop
  | .store q, r, db, db' =>
    (∃ a, q.run db = .ok (a, db') ∧ r = .ok a) ∨ ((∃ e, r = .error e) ∧ db' = db)
  | _, _, db, db' => db' = db

/-- Any bucket call, clock reading or other call answers anything; a statement
    answers what the database says or fails. The objects and the clock are left
    to whoever may change them. -/
def adversary : Answers World Call := fun _ w c r w' =>
  w'.log = observe w.db c r ++ w.log ∧ StoreEffect c r w.db w'.db

/-- What others may do at any time: anything but write the reconciled view,
    which only a pass does. -/
def Outside (w w' : World) : Prop :=
  w'.log = w.log ∧ w'.db.bucketBackups = w.db.bucketBackups

/-! ### The bucket of the state -/

namespace World

/-- The names below `root`: objects, or the folders of a listing that does not
    descend. -/
def listing (w : World) (root : Text) (recursive : Bool) : List Object :=
  let below := w.objects.filter (fun o => root.isPrefixOf o.1)
  if recursive then below.map (fun o => ⟨o.1, o.2.size⟩)
  else (below.map (fun o =>
    match Text.split '/' (Text.trimPrefix root o.1) with
    | segment :: _ :: _ => (⟨root ++ segment ++ ['/'], 0⟩ : Object)
    | _ => ⟨o.1, o.2.size⟩)).dedup

/-- The content stored under a key. -/
def content (w : World) (key : Text) : Option Content :=
  (Table.find Prod.fst key w.objects).map (·.2)

def put (w : World) (key : Text) (c : Content) : World :=
  { w with objects := Table.upsert Prod.fst key (fun _ => (key, c)) w.objects }

/-- Removing a missing object changes nothing. -/
def without (w : World) (key : Text) : World :=
  { w with objects := Table.delete Prod.fst key w.objects }

end World

theorem outside_without (w : World) (key : Text) : Outside w (w.without key) := ⟨rfl, rfl⟩

/-- How a call ends: as it should, failing without a trace, or failing after it
    has taken effect. -/
inductive Fault where
  | none
  | before
  | after
deriving DecidableEq

/-- The answer of the bucket. -/
def execBucket {β : Type} (w : World) : BucketCall β → Except Err β × World
  | .listObjects root recursive => (.ok (w.listing root recursive), w)
  | .readBytes key =>
    match w.content key with
    | some c => (.ok c, w)
    | none => (.error .driver, w)
  | .putObject key c => (.ok (), w.put key c)
  | .removeObject key => (.ok (), w.without key)
  | .bucketVersioning => (.ok w.versioning, w)

/-- The answer to a call that ends as `fault` says. A statement that fails has
    no effect: its transaction rolls back. -/
def execCall {β : Type} (fault : Fault) (w : World) : Call β → β × World
  | .store q =>
    match fault with
    | .none =>
      match q.run w.db with
      | .ok (a, db) => (.ok a, { w with db := db })
      | .error e => (.error e, w)
    | _ => (.error .driver, w)
  | .bucket _ q =>
    match fault with
    | .none => execBucket w q
    | .before => (.error .driver, w)
    | .after => (.error .driver, (execBucket w q).2)
  | .auth _ => (.error .driver, w)
  | .pg _ => (.error .driver, w)
  | .hbaFileErrors => (.error .driver, w)
  | .file _ => (.error .driver, w)
  | .host _ => (.ok (), w)
  | .storageClient => (.error .driver, w)
  | .sealSecret _ _ => ("", w)
  | .openSecret _ _ => (.error .driver, w)
  | .normalizeEmail value => ((value, true), w)
  | .now => (w.clock, w)
  | .token => ("", w)
  | .tokens => ([], w)
  | .totpSecret => ([], w)
  | .allow => (true, w)
  | .expired => (false, w)
  | .lock _ => ((), w)
  | .tryLock _ => (true, w)
  | .unlock _ => ((), w)
  | .respond _ _ => ((), w)

/-- The answer, with what it leaves in the log. -/
def exec {β : Type} (fault : Fault) (w : World) (c : Call β) : β × World :=
  let (r, w') := execCall fault w c
  (r, { w' with log := observe w.db c r ++ w'.log })

theorem exec_log {β : Type} (fault : Fault) (w : World) (c : Call β) :
    (exec fault w c).2.log =
      observe w.db c (execCall fault w c).1 ++ (execCall fault w c).2.log := rfl

/-- The bucket answers from the state, the clock does not run backwards, and
    calls fail only in the ways that `allowed` admits. -/
def answers (allowed : ∀ ⦃β : Type⦄, Call β → Fault → Prop) : Answers World Call :=
  fun _ w c r w' => ∃ fault t, allowed c fault ∧ w.clock ≤ t ∧
    exec fault { w with clock := t } c = (r, w')

/-- No call fails. -/
def faultless : ∀ ⦃β : Type⦄, Call β → Fault → Prop := fun _ _ fault => fault = .none

/-- Any call may fail in either way. -/
def anyFault : ∀ ⦃β : Type⦄, Call β → Fault → Prop := fun _ _ _ => True

theorem exec_adversary {β : Type} (fault : Fault) (w : World) (c : Call β) :
    adversary w c (exec fault w c).1 (exec fault w c).2 := by
  cases c with
  | store q =>
    cases fault with
    | none =>
      cases hrun : q.run w.db with
      | error e =>
        simp only [exec, execCall, hrun]
        exact ⟨rfl, Or.inr ⟨⟨e, rfl⟩, rfl⟩⟩
      | ok x =>
        simp only [exec, execCall, hrun]
        exact ⟨rfl, Or.inl ⟨x.1, hrun, rfl⟩⟩
    | before | after => exact ⟨rfl, Or.inr ⟨⟨_, rfl⟩, rfl⟩⟩
  | bucket s q =>
    have hkeep : (execBucket w q).2.db = w.db ∧ (execBucket w q).2.log = w.log := by
      cases q with
      | readBytes key =>
        simp only [execBucket]
        split <;> exact ⟨rfl, rfl⟩
      | _ => exact ⟨rfl, rfl⟩
    cases fault with
    | none | after => exact ⟨congrArg _ hkeep.2, hkeep.1⟩
    | before => exact ⟨rfl, rfl⟩
  | _ => exact ⟨rfl, rfl⟩

/-- A pass to its end, its calls failing as `plan` says. -/
def playPass (plan : ∀ ⦃β : Type⦄, Call β → Fault) (s : Settings) (installationID : String)
    (w : World) : World :=
  ((reconcile s installationID).run (fun _ w c => exec (plan c) w c) (w.begin s)).2

theorem exec_answers {allowed : ∀ ⦃β : Type⦄, Call β → Fault → Prop} {β : Type} {fault : Fault}
    {c : Call β} (h : allowed c fault) (w : World) :
    answers allowed w c (exec fault w c).1 (exec fault w c).2 :=
  ⟨fault, w.clock, h, le_rfl, rfl⟩

theorem playPass_trace (allowed : ∀ ⦃β : Type⦄, Call β → Fault → Prop)
    (plan : ∀ ⦃β : Type⦄, Call β → Fault) (h : ∀ ⦃β : Type⦄ (c : Call β), allowed c (plan c))
    (s : Settings) (installationID : String) (w : World) (env : World → World → Prop) :
    ∃ r, Trace (answers allowed) env (reconcile s installationID) (w.begin s) (some r)
      (playPass plan s installationID w) :=
  ⟨_, Prog.run_trace (fun _ w c => exec_answers (h c) w) _ _⟩

/-! ### A small bucket -/

/-- A store whose bucket keeps versions. -/
def vault : Settings := ⟨"s3".toList, "vault".toList, [], .versioning⟩

/-- The folder a backup of the database `app` has. -/
def appFolder (name : String) : Text := "backups/app/".toList ++ name.toList

def appArchive (name : String) : Text := appFolder name ++ '/' :: archiveFile

def appManifest (name : String) : Text := appFolder name ++ '/' :: manifestFile

/-- The entry of a complete backup. -/
def appEntry (name : String) (takenAt : ℤ) : Entry :=
  { directory := appFolder name, manifestKey := appManifest name, archiveKey := appArchive name
    takenAt := takenAt, state := .complete, sizeBytes := 4096 }

/-- The objects of a backup taken at a time by an installation. -/
def appBackup (installationID name : String) (takenAt : ℤ) : List (Text × Content) :=
  [(appArchive name, ⟨4096, none⟩),
   (appManifest name, ⟨512, some
     { version := 1, installationID := installationID, projectID := "p1", projectName := "app"
       dbName := "app".toList, postgresVersion := "17", createdAt := ofUnix takenAt
       archiveKey := appArchive name }⟩)]

/-- Two backups of `app`, of the first and the third of January 2024, a week
    later, with one daily backup to keep. -/
def twoBackups : World :=
  { db := { policy := ⟨24, 1, 0, -1⟩ }
    clock := ofUnix 1704844800
    objects := appBackup "home" "20240101T000000Z" 1704067200 ++
      appBackup "home" "20240103T000000Z" 1704240000 }

def noFaults : ∀ ⦃β : Type⦄, Call β → Fault := fun _ _ => .none

end Pgfy
