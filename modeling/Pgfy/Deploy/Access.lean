import Pgfy.Deploy.Update
import Pgfy.Site.State

/-! # Changing how the dashboard is reached

    A change of the access mode or of the hostname replaces three files one after
    another: `install.json`, the Caddyfile and `compose.env`. If a step of it
    fails, the installer puts the three back, but only after an `InstallError` or
    a `KeyboardInterrupt`; any other exception ends it where it stands, and so
    does any exception while the files are put back. And `compose.env` is not put
    back but written anew, with the memory the host has then.

    Each step is given with what it may do: work, or raise an exception with
    nothing done, or raise one when its file is already replaced, as a write does
    whose directory cannot be synchronised. What the commands do to containers,
    and the other keys of `install.json`, are left out.

    An update writes the same three files. `Host.accessFiles` reads them off the
    host of an update, and `accessFiles_renewed` says that they are those a change
    to the same configuration writes.
-/

namespace Pgfy.Deploy

/-! ### Hostnames -/

def isHostCharacter (c : Char) : Bool := ('a' ≤ c && c ≤ 'z') || ('0' ≤ c && c ≤ '9')

/-- A label of `HOSTNAME`: up to 63 characters, no hyphen at its ends. -/
def isHostLabel (label : Text) : Bool :=
  label.length ≤ 63 && label.all (fun c => isHostCharacter c || c == '-') &&
    label.head?.any isHostCharacter && label.getLast?.any isHostCharacter

/-- `HOSTNAME.fullmatch`: two labels or more. -/
def matchesHostname (hostname : Text) : Bool :=
  2 ≤ (Text.split '.' hostname).length && (Text.split '.' hostname).all isHostLabel

/-- A decimal number up to 255, without leading zeros. -/
def isOctet (part : Text) : Bool :=
  part ≠ [] && part.all Char.isDigit && part.length ≤ 3 &&
    (part = ['0'] || part.head? ≠ some '0') && Text.number part ≤ 255

/-- `ipaddress.ip_address` takes it; what matches `HOSTNAME` has no colon, so it
    is not an IPv6 address. -/
def isAddress (hostname : Text) : Bool :=
  (Text.split '.' hostname).length = 4 && (Text.split '.' hostname).all isOctet

def validHostname (hostname : Text) : Except PyError Text :=
  if hostname = [] || hostname.length > 253 || !matchesHostname hostname then
    .error (.install
      "Use a lowercase DNS hostname, without scheme, port, path, or wildcard.")
  else if isAddress hostname then
    .error (.install
      "Use a DNS hostname, not an IP address. Otherwise explicitly select --tunnel.")
  else .ok hostname

/-! ### The three files -/

/-- What `install.json` says about access. -/
structure AccessConfig where
  mode : AccessMode
  hostname : Text
  origin : Text
  generation : String
deriving DecidableEq

/-- The part that tells how the dashboard is reached. -/
def AccessConfig.access (cfg : AccessConfig) : AccessMode × Text × Text :=
  (cfg.mode, cfg.hostname, cfg.origin)

def siteBlock (address : Text) : Text :=
  "\x7b
    admin off
\x7d
http://127.0.0.1:8081 \x7b
    bind 127.0.0.1
    respond /health/live \"live\" 200
\x7d
".toList ++ address ++ " \x7b
    request_body \x7b
        max_size 8KB
    \x7d
    reverse_proxy application:3000 \x7b
        header_up X-Forwarded-For \x7bremote_host\x7d
        transport http \x7b
            dial_timeout 3s
            response_header_timeout 75s
        \x7d
    \x7d
\x7d
".toList

def caddyfile (cfg : AccessConfig) : Except PyError Text :=
  match cfg.mode with
  | .https => (validHostname cfg.hostname).map siteBlock
  | .tunnel => .ok (siteBlock "http://:8080".toList)

/-- PostgreSQL's memory from that of the host, in MiB. -/
def postgresMemory (total : ℤ) : ℤ × ℤ :=
  (min (max ((total - 1024) / 4) 128) 8192, max ((total - 1024) * 3 / 4) 256)

/-- The state, the directory and the environment, as far as `compose.env` has them. -/
structure ComposeValues where
  installDir : String
  application : String
  postgres : String
  caddy : String
  volumePrefix : String
  databaseSubnet : String
  proxySubnet : String
  publicSubnet : String
  /-- the first address of the public subnet -/
  tunnelSource : String
  /-- `PGFY_SCHEDULE_INTERVAL`, or `5m` -/
  scheduleInterval : String

/-- Where PostgreSQL's port is published. -/
def pgBind : AccessMode → String
  | .https => "0.0.0.0"
  | .tunnel => "127.0.0.1"

/-- `compose.env`, a line for each value. -/
def composeEnv (v : ComposeValues) (memory : ℤ) (mode : AccessMode) : Text :=
  [("INSTALL_DIR", v.installDir), ("APP_IMAGE", v.application), ("POSTGRES_IMAGE", v.postgres),
    ("CADDY_IMAGE", v.caddy), ("VOLUME_PREFIX", v.volumePrefix),
    ("DATABASE_SUBNET", v.databaseSubnet), ("PROXY_SUBNET", v.proxySubnet),
    ("PUBLIC_SUBNET", v.publicSubnet), ("TUNNEL_SOURCE", v.tunnelSource ++ "/32"),
    ("PG_BIND", pgBind mode), ("SCHEDULE_INTERVAL", v.scheduleInterval),
    ("PG_SHARED_BUFFERS", toString (postgresMemory memory).1 ++ "MB"),
    ("PG_EFFECTIVE_CACHE_SIZE", toString (postgresMemory memory).2 ++ "MB")].flatMap
    (fun line => line.1.toList ++ '=' :: line.2.toList ++ ['\n'])

structure AccessHost where
  install : AccessConfig
  caddyfile : Text
  /-- `compose.env` -/
  env : Text
  /-- `access-rollback.json` -/
  rollback : Option (AccessConfig × Text) := none
deriving DecidableEq

/-! ### Steps that may fail -/

inductive AccessStep where
  | readConfig
  | readRollback
  | networkPreflight
  | saveRollback
  | newGeneration
  | readCaddyfile
  | writeInstall
  | writeCaddyfile
  | validateCaddy
  | measureMemory
  | writeEnv
  | composeUp
  | verify
  | restoreGeneration
  | restoreInstall
  | restoreCaddyfile
  | restoreMemory
  | restoreEnv
  | restoreUp
  | restoreTimers
  | timers
  | syncCertificate
deriving DecidableEq

/-- What a step does: its work, or an exception with nothing or all of it done. -/
inductive StepFault where
  | works
  | before (e : PyError)
  | after (e : PyError)
deriving DecidableEq

/-- The exception of a step, if it raises one. -/
@[simp] def StepFault.error : StepFault → Option PyError
  | works => none
  | before e => some e
  | after e => some e

/-- The work of the step is done. -/
@[simp] def StepFault.took : StepFault → Bool
  | works => true
  | before _ => false
  | after _ => true

abbrev StepFaults := AccessStep → StepFault

/-- Python code that changes the host. An exception leaves the host as it stands. -/
abbrev AccessRun := EStateM PyError AccessHost

def perform (f : StepFaults) (s : AccessStep) (work : AccessHost → AccessHost) : AccessRun Unit :=
  fun h => match f s with
    | .works => .ok () (work h)
    | .before e => .error e h
    | .after e => .error e (work h)

/-- A step that does nothing to the three files. -/
def AccessRun.pass (f : StepFaults) (s : AccessStep) : AccessRun Unit := perform f s id

/-- What the host answers where that is open. -/
structure AccessReports where
  generation : String
  memory : ℤ
  restoredGeneration : String
  restoredMemory : ℤ

/-! ### The change -/

inductive AccessRequest where
  | change (mode : AccessMode) (hostname : Text)
  | rollback

def AccessRun.of {α : Type} : Except PyError α → AccessRun α
  | .ok a => pure a
  | .error e => throw e

/-- The new configuration, checked, with the previous one on record. -/
def prepareAccess (f : StepFaults) (old : AccessConfig) (request : AccessRequest) :
    AccessRun AccessConfig := do
  match request with
  | .rollback =>
    AccessRun.pass f .readRollback
    match (← get).rollback with
    | none => throw (.install "Cannot read valid JSON from access-rollback.json.")
    | some saved =>
      -- the record may predate an update, so only access fields come back
      pure { old with
        mode := saved.1.mode, hostname := saved.1.hostname, origin := saved.1.origin }
  | .change mode hostname =>
    if mode = .https then
      let _ ← AccessRun.of (validHostname hostname)
      AccessRun.pass f .networkPreflight
    perform f .saveRollback (fun h => { h with rollback := some (old, h.caddyfile) })
    pure { old with
      mode := mode
      hostname := hostname
      origin := if mode = .https then "https://".toList ++ hostname
        else "http://127.0.0.1:8080".toList }

/-- The three files of the new configuration, and the check that it serves. -/
def applyAccess (f : StepFaults) (v : ComposeValues) (io : AccessReports) (new : AccessConfig) :
    AccessRun Unit := do
  perform f .writeInstall (fun h => { h with install := new })
  let text ← AccessRun.of (caddyfile new)
  perform f .writeCaddyfile (fun h => { h with caddyfile := text })
  AccessRun.pass f .validateCaddy
  AccessRun.pass f .measureMemory
  perform f .writeEnv (fun h => { h with env := composeEnv v io.memory new.mode })
  AccessRun.pass f .composeUp
  AccessRun.pass f .verify

/-- `refresh_timers`: only a warning about what it expects. -/
def refreshTimers (f : StepFaults) (s : AccessStep) : AccessRun Unit :=
  tryCatch (AccessRun.pass f s) (fun e => if e.isInstall || e.isOs then pure () else throw e)

/-- Puts the three files back. -/
def restoreAccess (f : StepFaults) (v : ComposeValues) (io : AccessReports) (old : AccessConfig)
    (caddy : Text) : AccessRun Unit := do
  AccessRun.pass f .restoreGeneration
  perform f .restoreInstall (fun h => { h with
    install := { old with generation := io.restoredGeneration } })
  perform f .restoreCaddyfile (fun h => { h with caddyfile := caddy })
  AccessRun.pass f .restoreMemory
  perform f .restoreEnv (fun h => { h with env := composeEnv v io.restoredMemory old.mode })
  AccessRun.pass f .restoreUp
  refreshTimers f .restoreTimers
  throw (.install ("Access change failed; previous configuration restored. Sign in again. " ++
    "If the host was interrupted, run pgfyctl rollback-hostname."))

/-- The exceptions after which the files are put back. -/
def PyError.restores : PyError → Bool
  | install _ => true
  | interrupted _ => true
  | _ => false

/-- The attempt, with what follows its failure. -/
def tryAccess (f : StepFaults) (v : ComposeValues) (io : AccessReports) (old : AccessConfig)
    (saved : Text) (new : AccessConfig) : AccessRun Unit := do
  try
    applyAccess f v io new
  catch e =>
    if e.restores then restoreAccess f v io old saved else throw e

/-- `change_access`. -/
def changeAccess (f : StepFaults) (v : ComposeValues) (io : AccessReports)
    (request : AccessRequest) : AccessRun Unit := do
  AccessRun.pass f .readConfig
  let old := (← get).install
  let new ← prepareAccess f old request
  AccessRun.pass f .newGeneration
  let new := { new with generation := io.generation }
  AccessRun.pass f .readCaddyfile
  let saved := (← get).caddyfile
  tryAccess f v io old saved new
  refreshTimers f .timers
  if new.mode = .https then AccessRun.pass f .syncCertificate

/-! ### What a change leaves -/

/-- The host at the end of a run, whatever ends it. -/
@[simp] def hostAfter {α : Type} : EStateM.Result PyError AccessHost α → AccessHost
  | .ok _ h => h
  | .error _ h => h

@[simp] def errorAfter {α : Type} : EStateM.Result PyError AccessHost α → Option PyError
  | .ok _ _ => none
  | .error e _ => some e

/-- The configuration a request asks for. -/
def AccessHost.requested (h : AccessHost) : AccessRequest → AccessConfig
  | .change mode hostname => { h.install with
      mode := mode
      hostname := hostname
      origin := if mode = .https then "https://".toList ++ hostname
        else "http://127.0.0.1:8080".toList }
  | .rollback => match h.rollback with
    | none => h.install
    | some saved => { h.install with
        mode := saved.1.mode, hostname := saved.1.hostname, origin := saved.1.origin }

/-- The three files are those of a new configuration. -/
structure AccessHost.ShowsNew (v : ComposeValues) (io : AccessReports) (new : AccessConfig)
    (h : AccessHost) : Prop where
  install : h.install.access = new.access
  caddyfile : (Deploy.caddyfile new).toOption = some h.caddyfile
  env : h.env = composeEnv v io.memory new.mode

/-- The three files of `h'` are those of `h`. -/
structure AccessHost.ShowsPrevious (h h' : AccessHost) : Prop where
  install : h'.install.access = h.install.access
  caddyfile : h'.caddyfile = h.caddyfile
  env : h'.env = h.env

/-! ### The files of an update -/

/-- How the two JSON files are read. -/
structure FileReading where
  values : Content → ComposeValues
  config : Content → AccessConfig

/-- How this installer writes the files of a release, on a host with some memory.
    A hostname that is not valid has no Caddyfile. -/
def FileReading.rendering (read : FileReading) (memory : ℤ) (pgHba : Content → String)
    (pgfyctl : Release → String) : Rendering where
  composeEnv state cfg :=
    String.ofList (composeEnv (read.values state) memory (read.config cfg).mode)
  caddyfile cfg := String.ofList ((caddyfile (read.config cfg)).toOption.getD [])
  pgHba := pgHba
  pgfyctl := pgfyctl

/-- The three files of a host that is updated. -/
def Host.accessFiles (read : FileReading) (h : Host) : AccessHost where
  install := read.config (h.files .installJson)
  caddyfile := (h.files .caddyfile).body.toList
  env := (h.files .composeEnv).body.toList

/-- An update leaves the three files as a change of access to the configuration it
    writes would. -/
theorem accessFiles_renewed {read : FileReading} {io : AccessReports} {own : Rendering}
    {pgHba : Content → String} {pgfyctl : Release → String} {bundle : Bundle}
    {state cfg : Content} {generation : String} {h : Host} {text : Text}
    (hbundle : bundle.rendering = read.rendering io.memory pgHba pgfyctl)
    (hfiles : h.files = renewed own bundle state cfg generation)
    (htext : caddyfile (read.config (h.files .installJson)) = .ok text) :
    (h.accessFiles read).ShowsNew (read.values (h.files .stateJson)) io
      (read.config (h.files .installJson)) := by
  rw [hfiles] at htext ⊢
  refine ⟨by rw [Host.accessFiles, hfiles], ?_, ?_⟩
  · simp only [Host.accessFiles, hfiles, renewed, hbundle, FileReading.rendering] at htext ⊢
    rw [htext]
    simp [Except.toOption]
  · simp only [Host.accessFiles, hfiles, renewed, hbundle, FileReading.rendering]
    simp

/-! ### How an attempt ends -/

/-- The exception that ends the attempt. -/
def attemptError (f : StepFaults) (new : AccessConfig) : Option PyError :=
  (f .writeInstall).error <|> (match caddyfile new with
    | .error e => some e
    | .ok _ => [AccessStep.writeCaddyfile, .validateCaddy, .measureMemory, .writeEnv, .composeUp,
        .verify].findSome? (fun s => (f s).error))

/-- Whatever is raised when `install.json` is replaced and `compose.env` is not yet
    is an exception after which the files are put back. -/
structure StepFaults.Caught (f : StepFaults) : Prop where
  install : ∀ e, f .writeInstall = .after e → e.restores = true
  between : ∀ s ∈ [AccessStep.writeCaddyfile, .validateCaddy, .measureMemory], ∀ e,
    (f s).error = some e → e.restores = true
  env : ∀ e, f .writeEnv = .before e → e.restores = true

/-- The steps that put the files back work, up to the last file. -/
structure StepFaults.PutsBack (f : StepFaults) : Prop where
  works : ∀ s ∈ [AccessStep.restoreGeneration, .restoreInstall, .restoreCaddyfile,
    .restoreMemory], f s = .works
  env : (f .restoreEnv).took = true

/-! ### Step by step -/

section
variable {f : StepFaults} {v : ComposeValues} {io : AccessReports} {h : AccessHost}

theorem run_bind {α β : Type} {p : AccessRun α} {next : α → AccessRun β} :
    (p >>= next) h = match p h with
      | .ok a h' => next a h'
      | .error e h' => .error e h' := by
  change EStateM.bind p next h = _
  unfold EStateM.bind
  cases p h <;> rfl

theorem perform_bind {α : Type} {s : AccessStep} {work : AccessHost → AccessHost}
    {next : Unit → AccessRun α} : (perform f s work >>= next) h = match f s with
      | .works => next () (work h)
      | .before e => .error e h
      | .after e => .error e (work h) := by
  rw [run_bind]
  unfold perform
  cases f s <;> rfl

theorem get_bind {α : Type} {next : AccessHost → AccessRun α} :
    ((get : AccessRun AccessHost) >>= next) h = next h h := rfl

theorem of_bind {α β : Type} {r : Except PyError α} {next : α → AccessRun β} :
    (AccessRun.of r >>= next) h = match r with
      | .ok a => next a h
      | .error e => .error e h := by
  cases r <;> rfl

theorem pure_run {α : Type} {a : α} : (pure a : AccessRun α) h = .ok a h := rfl

theorem throw_run {α : Type} {e : PyError} : (throw e : AccessRun α) h = .error e h := rfl

/-- The timers leave the three files alone. -/
theorem hostAfter_refreshTimers {s : AccessStep} : hostAfter (refreshTimers f s h) = h := by
  change hostAfter (EStateM.tryCatch _ _ h) = h
  unfold EStateM.tryCatch AccessRun.pass perform
  cases f s with
  | works => rfl
  | before e | after e => cases he : e.isInstall || e.isOs <;> simp [he] <;> rfl

/-- Neither does what follows a run, if it leaves every host as it is. -/
theorem hostAfter_bind {α β : Type} {p : AccessRun α} {next : α → AccessRun β}
    (hnext : ∀ a h, hostAfter (next a h) = h) : hostAfter ((p >>= next) h) = hostAfter (p h) := by
  rw [run_bind]
  cases p h with
  | ok a h' => exact hnext a h'
  | error e h' => rfl

/-- Where the files are put back, the previous ones stand, with the memory as it is
    measured then. -/
theorem hostAfter_restoreAccess {old : AccessConfig} {caddy : Text} (hf : f.PutsBack) :
    hostAfter (restoreAccess f v io old caddy h) = { h with
      install := { old with generation := io.restoredGeneration }
      caddyfile := caddy
      env := composeEnv v io.restoredMemory old.mode } := by
  unfold restoreAccess AccessRun.pass
  simp only [perform_bind, hf.works _ (show AccessStep.restoreGeneration ∈ _ by decide),
    hf.works _ (show AccessStep.restoreInstall ∈ _ by decide),
    hf.works _ (show AccessStep.restoreCaddyfile ∈ _ by decide),
    hf.works _ (show AccessStep.restoreMemory ∈ _ by decide), id]
  cases henv : f .restoreEnv with
  | before e => simpa [henv] using hf.env
  | after e => rfl
  | works =>
    cases hup : f .restoreUp with
    | before e => rfl
    | after e => rfl
    | works =>
      simp only
      rw [hostAfter_bind (fun _ _ => rfl), hostAfter_refreshTimers]

theorem restores_of_caddyfile {new : AccessConfig} {e : PyError}
    (hrender : caddyfile new = .error e) : e.restores = true := by
  unfold caddyfile at hrender
  cases hmode : new.mode with
  | tunnel => simp [hmode] at hrender
  | https =>
    rw [hmode] at hrender
    unfold validHostname at hrender
    repeat' split at hrender
    all_goals cases hrender
    all_goals rfl

/-- The attempt step by step: an exception that is not caught comes before the first
    file is replaced or after the last one. -/
theorem applyAccess_spec {new : AccessConfig} (hf : f.Caught) :
    errorAfter (applyAccess f v io new h) = attemptError f new ∧
      ((attemptError f new).any PyError.restores = true ∨
        hostAfter (applyAccess f v io new h) = h ∨
        (hostAfter (applyAccess f v io new h)).ShowsNew v io new) := by
  unfold applyAccess AccessRun.pass attemptError
  simp only [perform_bind]
  cases hinstall : f .writeInstall with
  | before e => simp
  | after e => simp [hf.install e hinstall]
  | works =>
  cases hrender : caddyfile new with
  | error e => exact ⟨rfl, Or.inl (restores_of_caddyfile hrender)⟩
  | ok text =>
  change errorAfter ((perform f .writeCaddyfile _ >>= _) _) = _ ∧ (_ ∨
    hostAfter ((perform f .writeCaddyfile _ >>= _) _) = h ∨
    (hostAfter ((perform f .writeCaddyfile _ >>= _) _)).ShowsNew v io new)
  simp only [perform_bind, StepFault.error, List.findSome?_cons]
  -- up to `compose.env` an exception is one that is caught
  have hcaught := hf.between
  cases hcaddy : f .writeCaddyfile with
  | before e | after e => simp [hcaught .writeCaddyfile (by decide) e (by simp [hcaddy])]
  | works =>
  cases hvalidate : f .validateCaddy with
  | before e | after e => simp [hcaught .validateCaddy (by decide) e (by simp [hvalidate])]
  | works =>
  cases hmemory : f .measureMemory with
  | before e | after e => simp [hcaught .measureMemory (by decide) e (by simp [hmemory])]
  | works =>
  -- from `compose.env` on the three files are the new ones
  have hnew : AccessHost.ShowsNew v io new { h with
      install := new, caddyfile := text, env := composeEnv v io.memory new.mode } :=
    ⟨rfl, by rw [hrender]; rfl, rfl⟩
  cases henv : f .writeEnv with
  | before e => simp [hf.env e henv]
  | after e => exact ⟨rfl, Or.inr (Or.inr hnew)⟩
  | works =>
  cases hup : f .composeUp with
  | before e | after e => exact ⟨rfl, Or.inr (Or.inr hnew)⟩
  | works =>
  unfold perform
  cases hverify : f .verify with
  | before e | after e | works => exact ⟨rfl, Or.inr (Or.inr hnew)⟩

theorem hostAfter_tryAccess {old new : AccessConfig} {saved : Text} :
    hostAfter (tryAccess f v io old saved new h) =
      if (errorAfter (applyAccess f v io new h)).any PyError.restores
      then hostAfter (restoreAccess f v io old saved (hostAfter (applyAccess f v io new h)))
      else hostAfter (applyAccess f v io new h) := by
  change hostAfter (EStateM.tryCatch _ _ h) = _
  unfold EStateM.tryCatch
  cases applyAccess f v io new h with
  | ok u h' => rfl
  | error e h' =>
    cases he : e.restores with
    | true => simp [he]; rfl
    | false => simp [he]; rfl

/-- The three files are the same. -/
def AccessHost.SameFiles (h h' : AccessHost) : Prop :=
  h'.install = h.install ∧ h'.caddyfile = h.caddyfile ∧ h'.env = h.env

theorem AccessHost.SameFiles.showsPrevious {h' : AccessHost} (hs : h.SameFiles h') :
    h.ShowsPrevious h' :=
  ⟨congrArg AccessConfig.access hs.1, hs.2.1, hs.2.2⟩

theorem prepareAccess_spec (request : AccessRequest) :
    match prepareAccess f h.install request h with
    | .ok new h' => new = h.requested request ∧ h.SameFiles h'
    | .error _ h' => h.SameFiles h' := by
  have hsame : h.SameFiles h := ⟨rfl, rfl, rfl⟩
  unfold prepareAccess AccessRun.pass
  cases request with
  | rollback =>
    simp only [perform_bind]
    cases hread : f .readRollback with
    | before e => simp [hsame]
    | after e => simp [hsame]
    | works =>
      simp only [get_bind, id]
      cases hsaved : h.rollback with
      | none => simp [throw_run, hsame]
      | some saved => simp [pure_run, hsame, AccessHost.requested, hsaved]
  | change mode hostname =>
    cases mode with
    | tunnel =>
      simp only [perform_bind, reduceCtorEq, if_false]
      cases hsave : f .saveRollback <;>
        simp [pure_run, AccessHost.SameFiles, AccessHost.requested]
    | https =>
      simp only [perform_bind, of_bind, if_true, id]
      cases hvalid : validHostname hostname with
      | error e => simp [hsame]
      | ok name =>
        cases hpreflight : f .networkPreflight with
        | before e => simp [hsame]
        | after e => simp [hsame]
        | works =>
          cases hsave : f .saveRollback <;>
            simp [pure_run, AccessHost.SameFiles, AccessHost.requested]

/-- A change that is stopped early leaves the three files; any other comes to its
    attempt with them as they were. -/
theorem hostAfter_changeAccess (request : AccessRequest) :
    h.SameFiles (hostAfter (changeAccess f v io request h)) ∨ ∃ h₁, h.SameFiles h₁ ∧
      hostAfter (changeAccess f v io request h) = hostAfter (tryAccess f v io h.install h.caddyfile
        { h.requested request with generation := io.generation } h₁) := by
  have hsame : h.SameFiles h := ⟨rfl, rfl, rfl⟩
  unfold changeAccess AccessRun.pass
  simp only [perform_bind]
  cases hread : f .readConfig with
  | before e | after e => exact Or.inl hsame
  | works =>
  simp only [get_bind, id]
  have hspec := @prepareAccess_spec f h request
  rw [run_bind]
  generalize prepareAccess f h.install request h = r at hspec ⊢
  cases r with
  | error e h₁ => exact Or.inl hspec
  | ok new h₁ =>
  obtain ⟨rfl, hfiles⟩ := hspec
  simp only [perform_bind]
  cases hgeneration : f .newGeneration with
  | before e | after e => exact Or.inl hfiles
  | works =>
  cases hcaddy : f .readCaddyfile with
  | before e | after e => exact Or.inl hfiles
  | works =>
  refine Or.inr ⟨h₁, hfiles, ?_⟩
  simp only
  rw [get_bind, id, id, hfiles.2.1]
  refine hostAfter_bind (fun _ h₂ => ?_)
  rw [hostAfter_bind, hostAfter_refreshTimers]
  intro _ h₃
  split
  · unfold perform
    cases f .syncCertificate <;> rfl
  · rfl

end

/-- The three files are those of the requested configuration or the previous ones, as
    long as every exception between the first file and the last is one that is caught,
    and, if the attempt ends with such an exception, the files are put back without
    another one and `compose.env`, written with the memory measured then, is the
    previous one. -/
theorem access_all_or_nothing (f : StepFaults) (v : ComposeValues) (io : AccessReports)
    (request : AccessRequest) (h : AccessHost) (hcaught : f.Caught)
    (hback : (attemptError f (h.requested request)).any PyError.restores = true →
      f.PutsBack ∧ composeEnv v io.restoredMemory h.install.mode = h.env) :
    (hostAfter (changeAccess f v io request h)).ShowsNew v io (h.requested request) ∨
      h.ShowsPrevious (hostAfter (changeAccess f v io request h)) := by
  rcases @hostAfter_changeAccess f v io h request with hearly | hattempt
  · exact Or.inr hearly.showsPrevious
  obtain ⟨h₁, hfiles, hhost⟩ := hattempt
  obtain ⟨herror, hend⟩ := @applyAccess_spec f v io h₁
    { h.requested request with generation := io.generation } hcaught
  have hsame : attemptError f { h.requested request with generation := io.generation } =
      attemptError f (h.requested request) := rfl
  rw [hhost, hostAfter_tryAccess, herror, hsame]
  rw [hsame] at hend
  split
  · next hrestores =>
    obtain ⟨hputs, henv⟩ := hback hrestores
    rw [hostAfter_restoreAccess hputs]
    exact Or.inr ⟨rfl, rfl, henv⟩
  · next hno =>
    rcases hend with hyes | heq | hnew
    · exact absurd hyes hno
    · rw [heq]
      exact Or.inr hfiles.showsPrevious
    · exact Or.inl ⟨hnew.install, hnew.caddyfile, hnew.env⟩

/-! ### Changes of one installation -/

def tunnelValues : ComposeValues :=
  ⟨"/opt/firstcommit", "a", "p", "c", "v", "10.0.0.0/24", "10.0.1.0/24", "10.0.2.0/24", "10.0.2.1",
    "5m"⟩

/-- An installation reached through a tunnel, on a host of 2 GiB. -/
def tunnelHost : AccessHost where
  install := ⟨.tunnel, [], "http://127.0.0.1:8080".toList, "g"⟩
  caddyfile := siteBlock "http://:8080".toList
  env := composeEnv tunnelValues 2048 .tunnel

/-- The memory that is measured while the configuration changes. -/
def measuring (memory : ℤ) : AccessReports := ⟨"g1", memory, "g2", memory⟩

def toHostname : AccessRequest := .change .https "db.example.com".toList

/-- One step fails. -/
def failing (s : AccessStep) (e : PyError) : StepFaults :=
  fun s' => if s' = s then .before e else .works

def diskFull : PyError := .os "No space left on device"

/-- The host at the end of the change to the hostname. -/
def changed (f : StepFaults) (memory : ℤ) : AccessHost :=
  hostAfter (changeAccess f tunnelValues (measuring memory) toHostname tunnelHost)

/-- A check that fails as expected: the previous configuration is put back. -/
theorem access_all_or_nothing_uncertified :
    tunnelHost.ShowsPrevious (changed (failing .verify verifyFailed) 2048) := by
  refine (access_all_or_nothing (failing .verify verifyFailed) tunnelValues (measuring 2048)
    toHostname tunnelHost ⟨?_, ?_, ?_⟩ (fun _ => ⟨⟨?_, rfl⟩, rfl⟩)).resolve_left (fun hnew => ?_)
  · simp [failing]
  · simp [failing]
  · simp [failing]
  · simp [failing]
  · exact absurd (congrArg Prod.fst hnew.install) (by decide +kernel)

/-- The change has left neither configuration. -/
def Mixed (f : StepFaults) (memory : ℤ) : Prop :=
  ¬ ((changed f memory).ShowsNew tunnelValues (measuring memory)
      (tunnelHost.requested toHostname) ∨ tunnelHost.ShowsPrevious (changed f memory))

/-- The disk is full when the Caddyfile is to be written: an `OSError` is not caught, so
    `install.json` names the new hostname beside the previous Caddyfile and
    `compose.env`. The check fails on a host that has been given more memory: what is
    put back as `compose.env` is a third one. -/
theorem access_change_mixed :
    (changed (failing .writeCaddyfile diskFull) 2048 = { tunnelHost with
        install := { tunnelHost.requested toHostname with generation := "g1" }
        rollback := some (tunnelHost.install, tunnelHost.caddyfile) } ∧
      Mixed (failing .writeCaddyfile diskFull) 2048) ∧
    (changed (failing .verify verifyFailed) 4096).env = composeEnv tunnelValues 4096 .tunnel ∧
      Mixed (failing .verify verifyFailed) 4096 := by
  have hhost : changed (failing .writeCaddyfile diskFull) 2048 = { tunnelHost with
      install := { tunnelHost.requested toHostname with generation := "g1" }
      rollback := some (tunnelHost.install, tunnelHost.caddyfile) } := rfl
  refine ⟨⟨hhost, ?_⟩, rfl, ?_⟩
  · rintro (hnew | hprevious)
    · exact absurd hnew.env (by decide +kernel)
    · exact absurd (congrArg Prod.fst hprevious.install) (by decide +kernel)
  · rintro (hnew | hprevious)
    · exact absurd (congrArg Prod.fst hnew.install) (by decide +kernel)
    · exact absurd hprevious.env (by decide +kernel)

end Pgfy.Deploy
