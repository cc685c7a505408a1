import Pgfy.Framework.Program

/-! # The host of an installation

    What an update of the installation is about: the six managed files, the
    management database and its snapshot, the directory `update-rollback/` and
    the application's container. The tools the installer calls are given with
    what they do when they work, what they may do although they report success,
    and what they may leave behind when they fail.

    File modes and owners, the containers of PostgreSQL and of the proxy, the
    bundles under `releases/` and what a release changes on the host outside the
    managed files are left out.
-/

namespace Pgfy.Deploy

open Program

/-! ### Files and databases -/

/-- `UPDATE_FILES`. -/
inductive ManagedFile where
  | stateJson
  | composeEnv
  | installJson
  | caddyfile
  | pgHba
  | pgfyctl
deriving DecidableEq

def updateFiles : List ManagedFile :=
  [.stateJson, .composeEnv, .installJson, .caddyfile, .pgHba, .pgfyctl]

theorem mem_updateFiles (f : ManagedFile) : f ∈ updateFiles := by
  cases f <;> decide

abbrev Release := String

/-- What a managed file says. -/
structure Content where
  /-- the release it is for -/
  release : Release
  /-- what sessions are bound to; only `install.json` has one -/
  generation : String := ""
  body : String := ""
deriving DecidableEq

/-- The same, apart from the generation. -/
def Content.Same (a b : Content) : Prop := a.release = b.release ∧ a.body = b.body

/-- The management database. -/
structure Management where
  maintenance : Bool := false
  /-- the releases that have written to it since the update began, newest first -/
  writers : List Release := []
deriving DecidableEq

/-- A database file. -/
inductive Copy where
  | absent
  | damaged
  | whole (m : Management)
deriving DecidableEq

namespace Copy

/-- A sound database with some of it changed. -/
def map (f : Management → Management) : Copy → Copy
  | whole m => whole (f m)
  | c => c

/-- Releases have written to it. -/
def written (rs : List Release) : Copy → Copy :=
  map (fun m => { m with writers := rs ++ m.writers })

def setMaintenance (on : Bool) : Copy → Copy := map (fun m => { m with maintenance := on })

def isWhole : Copy → Bool
  | whole _ => true
  | _ => false

end Copy

/-- `meta.json`. -/
structure Record where
  format : ℕ := 1
  source : Release
  target : Release
  files : List ManagedFile
deriving DecidableEq

/-- `update-rollback/`. -/
structure RollbackDir where
  record : Option Record := none
  saved : ManagedFile → Option Content := fun _ => none

/-- A file in it. -/
inductive Entry where
  | record
  | saved (f : ManagedFile)
deriving DecidableEq

def allEntries : List Entry := .record :: updateFiles.map .saved

theorem mem_allEntries (e : Entry) : e ∈ allEntries := by
  cases e with
  | record => exact List.mem_cons_self
  | saved f => exact List.mem_cons_of_mem _ (List.mem_map_of_mem (mem_updateFiles f))

def RollbackDir.has (d : RollbackDir) : Entry → Bool
  | .record => d.record.isSome
  | .saved f => (d.saved f).isSome

def RollbackDir.without (d : RollbackDir) : Entry → RollbackDir
  | .record => { d with record := none }
  | .saved f => { d with saved := Function.update d.saved f none }

/-- The application's container. -/
inductive App where
  | running (r : Release)
  | restarting (r : Release)
  | down
deriving DecidableEq

/-- The release of the container, if it is not stopped. -/
def App.release : App → Option Release
  | running r => some r
  | restarting r => some r
  | down => none

inductive Status where
  | running
  | restarting
  | other
deriving DecidableEq

def App.status : App → Status
  | running _ => .running
  | restarting _ => .restarting
  | down => .other

structure Host where
  files : ManagedFile → Content
  db : Copy
  snapshot : Copy := .absent
  dir : Option RollbackDir := none
  app : App
  /-- signals are ignored -/
  shield : Bool := false
  /-- an update has removed the record of its snapshot, its commit point -/
  unlinked : Bool := false

namespace Host

def record (h : Host) : Option Record := h.dir.bind RollbackDir.record

/-- The release the containers are started with. -/
def configured (h : Host) : Release := (h.files .composeEnv).release

/-- The application has been started. On a database it cannot open it keeps
    restarting. -/
def started (h : Host) : Host :=
  { h with
    app := if h.db.isWhole then .running h.configured else .restarting h.configured
    db := h.db.written [h.configured] }

/-- What happens by itself: the application writes to its database. -/
def Lives (h h' : Host) : Prop :=
  ∃ rs : List Release, (∀ r ∈ rs, h.app.release = some r) ∧ h' = { h with db := h.db.written rs }

theorem Lives.refl (h : Host) : h.Lives h := by
  refine ⟨[], by simp, ?_⟩
  unfold Copy.written Copy.map
  cases h with
  | mk files db => cases db <;> rfl

theorem Lives.trans {h h' h'' : Host} (hl : h.Lives h') (hl' : h'.Lives h'') : h.Lives h'' := by
  obtain ⟨rs, hrs, rfl⟩ := hl
  obtain ⟨rs', hrs', rfl⟩ := hl'
  refine ⟨rs' ++ rs, fun r hr => ?_, ?_⟩
  · rcases List.mem_append.mp hr with hr | hr
    · exact hrs' r hr
    · exact hrs r hr
  · cases h with
    | mk files db => cases db <;> simp [Copy.written, Copy.map]

end Host

/-! ### Exceptions and tools -/

inductive PyError where
  /-- an `InstallError` -/
  | install (text : String)
  /-- an `OSError` -/
  | os (text : String)
  /-- any other exception of a step -/
  | other (text : String)
  /-- a signal -/
  | interrupted (text : String)
deriving DecidableEq

def PyError.text : PyError → String
  | install text => text
  | os text => text
  | other text => text
  | interrupted text => text

def PyError.isInstall : PyError → Bool
  | install _ => true
  | _ => false

def PyError.isOs : PyError → Bool
  | os _ => true
  | _ => false

/-- What the installer calls, with what it gets back. -/
inductive Tool : Type → Type
  | say : Tool Unit
  /-- the checks, the staging of the bundle and the pulls of images -/
  | prepare : Tool Unit
  | read (f : ManagedFile) : Tool Content
  | write (f : ManagedFile) (c : Content) : Tool Unit
  | caddyVersion : Tool String
  | uuid : Tool String
  /-- a deadline has not passed -/
  | inTime : Tool Bool
  | appStatus : Tool Status
  | jobsRunning : Tool ℕ
  /-- in the running application -/
  | maintenance (on : Bool) : Tool Unit
  /-- the same to turn it off, with the exit status as the answer -/
  | maintenanceOff : Tool Bool
  /-- in a container of its own, to turn it on -/
  | maintenanceAside : Tool Unit
  | composeStop : Tool Unit
  /-- whatever the exit status -/
  | composeStopAnyway : Tool Unit
  | composeUp : Tool Unit
  /-- the application only, whatever the exit status -/
  | composeUpAnyway : Tool Unit
  | verify : Tool Unit
  /-- what a release changes on the host and in PostgreSQL -/
  | convergeHost : Tool Unit
  | storeSnapshot : Tool Unit
  | storeCheck : Tool Unit
  | storeRestore : Tool Unit
  | discardSnapshot : Tool Unit
  | dirExists : Tool Bool
  | makeDir : Tool Unit
  | save (f : ManagedFile) : Tool Unit
  | writeRecord (r : Record) : Tool Unit
  | recordExists : Tool Bool
  | readRecord : Tool Record
  | readSaved (f : ManagedFile) : Tool Content
  | unlinkRecord : Tool Unit
  | fsyncDir : Tool Unit
  /-- the files of the directory, in the order they are listed in -/
  | entries : Tool (List Entry)
  | remove (e : Entry) : Tool Unit
  | removeDir : Tool Unit
  | unlinkAccess : Tool Unit

/-- What is open about a tool that works. -/
structure Chance where
  uuid : String := ""
  caddyVersion : String := ""
  jobs : ℕ := 0
  order : List Entry := []

/-- A command that has exited with a failure, see `run`. -/
def commandFailed : PyError := .install
  "docker failed (exit 1). Run pgfyctl diagnostics; inspect restricted host logs if needed."

def verifyFailed : PyError := .install
  ("Caddy routing or HTTPS verification failed. Check DNS and inbound 80/443. Public HTTP setup " ++
    "stays disabled; use explicit host-side tunnel recovery if needed.")

def notReadable : PyError := .install "Cannot read valid JSON from update-rollback/meta.json."

def noSuchFile : PyError := .os "No such file or directory"

/-- What a tool does when it works, which includes refusing what cannot be done. -/
def Tool.works (ch : Chance) (h : Host) {α : Type} : Tool α → Except PyError α × Host
  | say => (.ok (), h)
  | prepare => (.ok (), h)
  | read f => (.ok (h.files f), h)
  | write f c => (.ok (), { h with files := Function.update h.files f c })
  | caddyVersion => (.ok ch.caddyVersion, h)
  | uuid => (.ok ch.uuid, h)
  | inTime => (.ok true, h)
  | appStatus => (.ok h.app.status, h)
  | jobsRunning => (.ok ch.jobs, h)
  | maintenance on =>
    if h.app.status = .running then (.ok (), { h with db := h.db.setMaintenance on })
    else (.error commandFailed, h)
  | maintenanceOff =>
    if h.app.status = .running then (.ok true, { h with db := h.db.setMaintenance false })
    else (.ok false, h)
  | maintenanceAside =>
    (.ok (), { h with db := (h.db.setMaintenance true).written [h.configured] })
  | composeStop => (.ok (), { h with app := .down })
  | composeStopAnyway => (.ok (), { h with app := .down })
  | composeUp => (.ok (), h.started)
  | composeUpAnyway => (.ok (), h.started)
  | verify => if h.app.status = .running then (.ok (), h) else (.error verifyFailed, h)
  | convergeHost => (.ok (), h)
  | storeSnapshot =>
    if h.db.isWhole then (.ok (), { h with snapshot := h.db }) else (.error commandFailed, h)
  | storeCheck => if h.snapshot.isWhole then (.ok (), h) else (.error commandFailed, h)
  | storeRestore =>
    if h.snapshot.isWhole then (.ok (), { h with db := h.snapshot }) else (.error commandFailed, h)
  | discardSnapshot => (.ok (), { h with snapshot := .absent })
  | dirExists => (.ok h.dir.isSome, h)
  | makeDir => match h.dir with
    | none => (.ok (), { h with dir := some {} })
    | some _ => (.error (.os "File exists"), h)
  | save f => match h.dir with
    | none => (.error noSuchFile, h)
    | some d =>
      (.ok (), { h with dir := some { d with saved := Function.update d.saved f (h.files f) } })
  | writeRecord r => match h.dir with
    | none => (.error noSuchFile, h)
    | some d => (.ok (), { h with dir := some { d with record := some r } })
  | recordExists => (.ok h.record.isSome, h)
  | readRecord => match h.record with
    | none => (.error notReadable, h)
    | some r => (.ok r, h)
  | readSaved f => match h.dir.bind (fun d => d.saved f) with
    | none => (.error noSuchFile, h)
    | some c => (.ok c, h)
  | unlinkRecord => match h.dir with
    | none => (.error noSuchFile, h)
    | some d =>
      if d.has .record then
        (.ok (), { h with dir := some (d.without .record), unlinked := true })
      else (.error noSuchFile, h)
  | fsyncDir => (.ok (), h)
  | entries => match h.dir with
    | none => (.error noSuchFile, h)
    | some d => (.ok ((allEntries ++ ch.order).dedup.filter d.has), h)
  | remove e => match h.dir with
    | none => (.error noSuchFile, h)
    | some d => (.ok (), { h with dir := some (d.without e) })
  | removeDir => match h.dir with
    | none => (.error noSuchFile, h)
    | some d =>
      if allEntries.any d.has then (.error (.os "Directory not empty"), h)
      else (.ok (), { h with dir := none })
  | unlinkAccess => (.ok (), h)

/-- What a tool may answer without an error although it has not done all it is
    for: a container does not stop, does not come up or keeps restarting, a
    deadline passes, an exit status that is not an error is one of failure. -/
def Tool.Slips {α : Type} : Tool α → Host → α → Host → Prop
  | inTime, h, a, h' => a = false ∧ h' = h
  | maintenanceOff, h, a, h' => a = false ∧ h' = h
  | composeStop, h, _, h' => h' = h
  | composeStopAnyway, h, _, h' => h' = h
  | composeUp, h, _, h' =>
    ∃ app ∈ [App.restarting h.configured, App.down], h' = { h.started with app := app }
  | composeUpAnyway, h, _, h' =>
    h' = h ∨ ∃ app ∈ [App.restarting h.configured, App.down], h' = { h.started with app := app }
  | _, _, _, _ => False

/-- What a tool that fails may leave half done. -/
def Tool.Breaks {α : Type} : Tool α → Host → Host → Prop
  | composeUp, h, h' => h' = { h with app := .down }
  | composeUpAnyway, h, h' => h' = { h with app := .down }
  | maintenanceAside, h, h' => h' = { h with db := h.db.written [h.configured] }
  | storeSnapshot, h, h' => h' = { h with snapshot := .damaged }
  | storeRestore, h, h' => h' = { h with db := .damaged }
  | save f, h, h' => ∃ d c, h.dir = some d ∧
      h' = { h with dir := some { d with saved := Function.update d.saved f (some c) } }
  | _, _, _ => False

/-- What a tool may leave, whether it works or not: nothing done, half of it, or
    all. -/
def Tool.Leaves {α : Type} (t : Tool α) (h h' : Host) : Prop :=
  h' = h ∨ (∃ ch, h' = (t.works ch h).2) ∨ (∃ a, t.Slips h a h') ∨ t.Breaks h h'

/-! ### Calls -/

/-- A call of the installer: of a tool, or to ignore signals from now on or no
    longer. -/
inductive Step : Type → Type 1
  | tool {α : Type} (t : Tool α) : Step (Except PyError α)
  | shield (on : Bool) : Step (Except PyError Unit)

abbrev Py (α : Type) := Action PyError Step α

def tool {α : Type} (t : Tool α) : Py α := Prog.ask (.tool t)

def raise {α : Type} (e : PyError) : Py α := Action.fail e

/-- Tools that work. -/
def worksReplies : Answers Host Step := fun _ h c r h' =>
  match c, r with
  | .tool t, r => ∃ ch, t.works ch h = (r, h')
  | .shield on, r => r = .ok () ∧ h' = { h with shield := on }

/-- Tools that may fail in any way. A signal is an exception like any other: it
    arrives before or after a tool has done its work, or where signals are not yet
    ignored or no longer are. -/
def anyReplies : Answers Host Step := fun _ h c r h' =>
  match c, r with
  | .tool t, r => (∃ ch, t.works ch h = (r, h')) ∨ (∃ a, r = .ok a ∧ t.Slips h a h') ∨
      (∃ e, r = .error e ∧ t.Leaves h h')
  | .shield on, r => (r = .ok () ∧ h' = { h with shield := on }) ∨
      ∃ text, r = .error (.interrupted text) ∧ h' = { h with shield := false }

theorem anyReplies_of_works {β : Type} {h h' : Host} {c : Step β} {r : β}
    (hw : worksReplies h c r h') : anyReplies h c r h' := by
  cases c with
  | tool t | shield on => exact Or.inl hw

theorem anyReplies.shielded {h h' : Host} {on : Bool} {r : Except PyError Unit}
    (ha : anyReplies h (.shield on) r h') : ∃ b, h' = { h with shield := b } := by
  rcases ha with ⟨-, rfl⟩ | ⟨text, -, rfl⟩
  · exact ⟨on, rfl⟩
  · exact ⟨false, rfl⟩

theorem worksReplies_total {β : Type} (h : Host) (c : Step β) : ∃ r h', worksReplies h c r h' := by
  cases c with
  | tool t => exact ⟨_, _, {}, rfl⟩
  | shield on => exact ⟨.ok (), _, rfl, rfl⟩

theorem anyReplies.leaves {α : Type} {t : Tool α} {h h' : Host} {r : Except PyError α}
    (ha : anyReplies h (.tool t) r h') : t.Leaves h h' := by
  rcases ha with ⟨ch, hw⟩ | ⟨a, -, hs⟩ | ⟨e, -, hl⟩
  · exact Or.inr (Or.inl ⟨ch, by rw [hw]⟩)
  · exact Or.inr (Or.inr (Or.inl ⟨a, hs⟩))
  · exact hl

/-! ### What a tool touches -/

inductive Part where
  | file (f : ManagedFile)
  | db
  | snapshot
  | dir
  | app
  | mark
deriving DecidableEq

def Tool.touches {α : Type} : Tool α → List Part
  | write f _ => [.file f]
  | maintenance _ => [.db]
  | maintenanceOff => [.db]
  | maintenanceAside => [.db]
  | composeStop => [.app]
  | composeStopAnyway => [.app]
  | composeUp => [.app, .db]
  | composeUpAnyway => [.app, .db]
  | storeSnapshot => [.snapshot]
  | storeRestore => [.db]
  | discardSnapshot => [.snapshot]
  | makeDir => [.dir]
  | save _ => [.dir]
  | writeRecord _ => [.dir]
  | unlinkRecord => [.dir, .mark]
  | remove _ => [.dir]
  | removeDir => [.dir]
  | _ => []

/-- Nothing but the parts has changed. -/
structure Host.Within (ps : List Part) (h h' : Host) : Prop where
  files : ∀ f, .file f ∉ ps → h'.files f = h.files f
  db : .db ∉ ps → h'.db = h.db
  snapshot : .snapshot ∉ ps → h'.snapshot = h.snapshot
  dir : .dir ∉ ps → h'.dir = h.dir
  app : .app ∉ ps → h'.app = h.app
  unlinked : .mark ∉ ps → h'.unlinked = h.unlinked
  shield : h'.shield = h.shield

theorem Host.Within.refl (ps : List Part) (h : Host) : h.Within ps h :=
  ⟨fun _ _ => rfl, fun _ => rfl, fun _ => rfl, fun _ => rfl, fun _ => rfl, fun _ => rfl, rfl⟩

theorem Tool.works_within {α : Type} (t : Tool α) (ch : Chance) (h : Host) :
    h.Within t.touches (t.works ch h).2 := by
  cases t
  all_goals
    simp only [Tool.works, Host.started]
    repeat' split
    all_goals constructor <;> simp +contextual [Tool.touches]

theorem Tool.Slips.within {α : Type} {t : Tool α} {h h' : Host} {a : α} (hs : t.Slips h a h') :
    h.Within t.touches h' := by
  cases t
  case inTime => obtain ⟨-, rfl⟩ := hs; exact .refl _ _
  case maintenanceOff => obtain ⟨-, rfl⟩ := hs; exact .refl _ _
  case composeStop => obtain rfl := hs; exact .refl _ _
  case composeStopAnyway => obtain rfl := hs; exact .refl _ _
  case composeUp =>
    obtain ⟨app, -, rfl⟩ := hs
    constructor <;> simp [Tool.touches, Host.started]
  case composeUpAnyway =>
    rcases hs with rfl | ⟨app, -, rfl⟩
    · exact .refl _ _
    · constructor <;> simp [Tool.touches, Host.started]
  all_goals exact hs.elim

theorem Tool.Breaks.within {α : Type} {t : Tool α} {h h' : Host} (hb : t.Breaks h h') :
    h.Within t.touches h' := by
  cases t
  case save f =>
    obtain ⟨d, c, -, rfl⟩ := hb
    constructor <;> simp [Tool.touches]
  case composeUp => obtain rfl := hb; constructor <;> simp [Tool.touches]
  case composeUpAnyway => obtain rfl := hb; constructor <;> simp [Tool.touches]
  case maintenanceAside => obtain rfl := hb; constructor <;> simp [Tool.touches]
  case storeSnapshot => obtain rfl := hb; constructor <;> simp [Tool.touches]
  case storeRestore => obtain rfl := hb; constructor <;> simp [Tool.touches]
  all_goals exact hb.elim

theorem Tool.Leaves.within {α : Type} {t : Tool α} {h h' : Host} (hl : t.Leaves h h') :
    h.Within t.touches h' := by
  rcases hl with rfl | ⟨ch, rfl⟩ | ⟨a, hs⟩ | hb
  · exact .refl _ _
  · exact t.works_within ch h
  · exact hs.within
  · exact hb.within

end Pgfy.Deploy
