import Pgfy.Calls

/-! # What the application runs against

    The application's database, PostgreSQL, the managed rule file, the locks of
    the process, the clock and the vault, and how each call is answered from
    them. Answers that come from outside (a random token, a request's fate at
    the rate limits, anything about a bucket) are left open.

    Sealing is ideal: a sealed text is new whenever something is sealed, and
    opens to what it was made from, for the project it was made for.
-/

namespace Pgfy

open Calendar Program Storage

/-! ### The access configuration -/

inductive AccessMode where
  | https
  | tunnel
deriving DecidableEq

def AccessMode.text : AccessMode → String
  | https => "https"
  | tunnel => "tunnel"

/-- The part of the installation's configuration that sessions depend on. -/
structure Config where
  id : String
  mode : AccessMode
  generation : String
  origin : String
deriving DecidableEq

/-- What a session is bound to. -/
def Config.scope (c : Config) : String :=
  c.id ++ ":" ++ c.mode.text ++ ":" ++ c.generation ++ ":" ++ c.origin

structure PgRole where
  name : Text
  password : String
  info : RoleInfo
  /-- the application's role is a member, as of every role it created -/
  ours : Bool
  state : RoleState
deriving DecidableEq

structure PgDatabase where
  name : Text
  owner : Text
deriving DecidableEq

structure Postgres where
  roles : List PgRole := []
  databases : List PgDatabase := []
  /-- the managed rules in force -/
  loaded : Option (List RuleLine) := none
  loadTime : Instant := 0
  /-- a load was asked for and has not happened yet -/
  signalled : Bool := false
deriving DecidableEq

namespace Postgres

def role (name : Text) (pg : Postgres) : Option PgRole := Table.find PgRole.name name pg.roles

def database (name : Text) (pg : Postgres) : Option PgDatabase :=
  Table.find PgDatabase.name name pg.databases

/-- Changes a role that must exist. -/
def alterRole (name : Text) (f : PgRole → PgRole) (pg : Postgres) : Except Err (Unit × Postgres) :=
  match pg.role name with
  | none => .error .driver
  | some _ => .ok ((), { pg with roles := Table.modify PgRole.name name f pg.roles })

end Postgres

/-- The settings of a role with some of them set. -/
def setAll (new old : List (String × String)) : List (String × String) :=
  new.foldl (fun settings kv => Table.upsert Prod.fst kv.1 (fun _ => kv) settings) old

/-- The role without its settings of these keys in a database. Only those in the
    database of the role's own name are kept. -/
def PgRole.resetIn (database : Text) (keys : List String) (r : PgRole) : PgRole :=
  if database = r.name then { r with
    state := { r.state with
      databaseSettings := r.state.databaseSettings.filter (fun kv => kv.1 ∉ keys) } }
  else r

@[simp] theorem PgRole.resetIn_name (database : Text) (keys : List String) (r : PgRole) :
    (r.resetIn database keys).name = r.name := by
  unfold resetIn
  split <;> rfl

/-- The role-wide settings stay. -/
@[simp] theorem PgRole.resetIn_settings (database : Text) (keys : List String) (r : PgRole) :
    (r.resetIn database keys).state.settings = r.state.settings := by
  unfold resetIn
  split <;> rfl

@[simp] theorem PgRole.resetIn_connectionLimit (database : Text) (keys : List String)
    (r : PgRole) :
    (r.resetIn database keys).state.connectionLimit = r.state.connectionLimit := by
  unfold resetIn
  split <;> rfl

/-- What a statement on PostgreSQL does. -/
def PgCall.run {β : Type} : PgCall β → Postgres → Except Err (β × Postgres)
  | roleInfo name, pg => .ok ((pg.role name).map PgRole.info, pg)
  | setPassword name password, pg => pg.alterRole name (fun r => { r with password := password })
  | createRole name password connectionLimit, pg =>
    match pg.role name with
    | some _ => .error .driver
    | none => .ok ((), { pg with
      roles := pg.roles ++ [⟨name, password, ⟨true, false, false, false⟩, true,
        ⟨[], [], connectionLimit⟩⟩] })
  | databaseOwner name, pg => .ok ((pg.database name).map PgDatabase.owner, pg)
  | createDatabase name owner, pg =>
    if (pg.database name).isSome || (pg.role owner).isNone then .error .driver
    else .ok ((), { pg with databases := pg.databases ++ [⟨name, owner⟩] })
  | revokePublic name, pg => if (pg.database name).isSome then .ok ((), pg) else .error .driver
  | applyLimits name settings connectionLimit, pg => pg.alterRole name (fun r => { r with
      state := { r.state with
        settings := setAll settings r.state.settings, connectionLimit := connectionLimit } })
  | roleStates, pg =>
    .ok ((pg.roles.filter (fun r => validName r.name)).map (fun r => (r.name, r.state)), pg)
  | resetDatabaseLimits name database keys, pg => pg.alterRole name (PgRole.resetIn database keys)
  | setReadOnly name on, pg => pg.alterRole name (fun r => { r with
      state := { r.state with
        settings :=
          if on then setAll [("default_transaction_read_only", "on")] r.state.settings
          else r.state.settings.filter (fun kv => kv.1 ≠ "default_transaction_read_only") } })
  | terminateSessions _ _, pg => .ok ((), pg)
  | ownership name database, pg =>
    .ok (((pg.role name).any PgRole.ours, (pg.database database).any (·.owner = name)), pg)
  | disableLogin name, pg => pg.alterRole name (fun r => { r with
      info := { r.info with login := false } })
  | terminateRole _, pg => .ok ((), pg)
  | dropDatabase name, pg =>
    match pg.database name with
    | none => .error .driver
    | some _ => .ok ((), { pg with databases := Table.delete PgDatabase.name name pg.databases })
  | dropRole name, pg =>
    -- a role that owns a database cannot be dropped
    if (pg.role name).isNone || pg.databases.any (·.owner = name) then .error .driver
    else .ok ((), { pg with roles := Table.delete PgRole.name name pg.roles })
  | confLoadTime, pg => .ok (pg.loadTime, pg)
  | reloadConf, pg => .ok ((), { pg with signalled := true })

/-! ### The state -/

/-- A text the vault has sealed. -/
structure Sealing where
  text : String
  projectID : String
  password : String
deriving DecidableEq

structure Site where
  /-- what the running process was started with -/
  config : Config
  /-- the session scopes the application has run with -/
  scopes : List String := [config.scope]
  clock : Instant := 0
  db : Database := {}
  vault : List Sealing := []
  pg : Postgres := {}
  /-- the managed rule file -/
  rules : Option (List RuleLine) := none
  /-- the threads that hold the locks of the process -/
  locks : Mutex → Option ℕ := fun _ => none

namespace Site

/-- What a sealed password opens to. -/
def opened (projectID sealedValue : String) (s : Site) : Except Err String :=
  match Table.find Sealing.text sealedValue s.vault with
  | none => .error .driver
  | some v => if v.projectID = projectID then .ok v.password else .error .driver

/-- The state with one lock taken or given back. -/
def withLock (m : Mutex) (holder : Option ℕ) (s : Site) : Site :=
  { s with locks := Function.update s.locks m holder }

/-- The answer of the rule file. -/
def file {β : Type} (s : Site) : FileCall β → β × Site
  | .readRules => (s.rules, s)
  | .writeRules lines => ((), { s with rules := some lines })
  | .removeRules => ((), { s with rules := none })

/-- A new process: the locks of the old one are gone. -/
def restarted (config : Config) (s : Site) : Site :=
  { s with config := config, scopes := config.scope :: s.scopes, locks := fun _ => none }

end Site

/-! ### Answers -/

/-- Which calls may fail although nothing is wrong with them. -/
abbrev Faults := ∀ ⦃β : Type⦄, Call β → Prop

/-- How a call of thread `i` may be answered. A statement on the database that
    fails has no effect; one on PostgreSQL may fail after it took effect. -/
def Site.Replies (fails : Faults) (i : ℕ) {β : Type} : Call β → Site → β → Site → Prop
  | .store q, s, r, s' =>
    (∃ a db, q.run s.db = .ok (a, db) ∧ r = .ok a ∧ s' = { s with db := db }) ∨
      (∃ e, r = .error e ∧ (q.run s.db = .error e ∨ fails (.store q)) ∧ s' = s)
  | .auth q, s, r, s' =>
    (∃ a db, q.run s.db = .ok (a, db) ∧ r = .ok a ∧ s' = { s with db := db }) ∨
      (∃ e, r = .error e ∧ (q.run s.db = .error e ∨ fails (.auth q)) ∧ s' = s)
  | .pg q, s, r, s' =>
    (∃ a pg, q.run s.pg = .ok (a, pg) ∧ (r = .ok a ∨ fails (.pg q) ∧ ∃ e, r = .error e) ∧
        s' = { s with pg := pg }) ∨
      (∃ e, r = .error e ∧ (q.run s.pg = .error e ∨ fails (.pg q)) ∧ s' = s)
  | .file q, s, r, s' =>
    (r = .ok (s.file q).1 ∧ s' = (s.file q).2) ∨ (fails (.file q) ∧ (∃ e, r = .error e) ∧ s' = s)
  | .sealSecret projectID password, s, r, s' =>
    r ∉ s.vault.map Sealing.text ∧ s' = { s with vault := ⟨r, projectID, password⟩ :: s.vault }
  | .openSecret projectID sealedValue, s, r, s' => r = s.opened projectID sealedValue ∧ s' = s
  | .now, s, r, s' => r = s.clock ∧ s' = s
  | .lock m, s, _, s' => s.locks m = none ∧ s' = s.withLock m (some i)
  | .tryLock m, s, r, s' =>
    (r = true ∧ s.locks m = none ∧ s' = s.withLock m (some i)) ∨
      (r = false ∧ s.locks m ≠ none ∧ s' = s)
  | .unlock m, s, _, s' => s' = s.withLock m none
  | .hbaFileErrors, s, _, s' => s' = s
  | .bucket _ _, s, _, s' => s' = s
  | .host _, s, _, s' => s' = s
  | .storageClient, s, _, s' => s' = s
  | .normalizeEmail _, s, _, s' => s' = s
  | .token, s, _, s' => s' = s
  | .tokens, s, _, s' => s' = s
  | .totpSecret, s, _, s' => s' = s
  | .allow, s, _, s' => s' = s
  | .expired, s, _, s' => s' = s
  | .respond _ _, s, _, s' => s' = s

/-- Any call may fail. -/
def everyFault : Faults := fun _ _ => True

/-- No call changes the configuration or the clock. -/
theorem Site.Replies.config {fails : Faults} {i : ℕ} {β : Type} {c : Call β} {s s' : Site} {r : β}
    (h : Site.Replies fails i c s r s') :
    s'.config = s.config ∧ s'.scopes = s.scopes ∧ s'.clock = s.clock := by
  cases c with
  | store q | auth q => rcases h with ⟨a, db, -, -, rfl⟩ | ⟨e, -, -, rfl⟩ <;> exact ⟨rfl, rfl, rfl⟩
  | pg q => rcases h with ⟨a, pg, -, -, rfl⟩ | ⟨e, -, -, rfl⟩ <;> exact ⟨rfl, rfl, rfl⟩
  | file q =>
    rcases h with ⟨-, rfl⟩ | ⟨-, -, rfl⟩
    · cases q <;> exact ⟨rfl, rfl, rfl⟩
    · exact ⟨rfl, rfl, rfl⟩
  | sealSecret projectID password | openSecret projectID sealedValue | now | lock m =>
    rw [h.2]; exact ⟨rfl, rfl, rfl⟩
  | tryLock m => rcases h with ⟨-, -, rfl⟩ | ⟨-, -, rfl⟩ <;> exact ⟨rfl, rfl, rfl⟩
  | unlock m => rw [show s' = _ from h]; exact ⟨rfl, rfl, rfl⟩
  | _ => exact h ▸ ⟨rfl, rfl, rfl⟩

/-- What a call with its answer means for the database. -/
def Call.Writes {β : Type} : Call β → β → Database → Database → Prop
  | .store q, r, db, db' => (∃ a, q.run db = .ok (a, db') ∧ r = .ok a) ∨
      ((∃ e, r = .error e) ∧ db' = db)
  | .auth q, r, db, db' => (∃ a, q.run db = .ok (a, db') ∧ r = .ok a) ∨
      ((∃ e, r = .error e) ∧ db' = db)
  | _, _, db, db' => db' = db

theorem Site.Replies.writes {fails : Faults} {i : ℕ} {β : Type} {c : Call β} {s s' : Site} {r : β}
    (h : Site.Replies fails i c s r s') : c.Writes r s.db s'.db := by
  cases c with
  | store q | auth q =>
    rcases h with ⟨a, db, hrun, hr, rfl⟩ | ⟨e, hr, -, rfl⟩
    · exact Or.inl ⟨a, hrun, hr⟩
    · exact Or.inr ⟨⟨e, hr⟩, rfl⟩
  | pg q => rcases h with ⟨a, pg, -, -, rfl⟩ | ⟨e, -, -, rfl⟩ <;> rfl
  | file q =>
    rcases h with ⟨-, rfl⟩ | ⟨-, -, rfl⟩
    · cases q <;> rfl
    · rfl
  | sealSecret projectID password | lock m =>
    obtain ⟨-, rfl⟩ := h
    rfl
  | openSecret projectID sealedValue | now => exact congrArg Site.db h.2
  | tryLock m => rcases h with ⟨-, -, rfl⟩ | ⟨-, -, rfl⟩ <;> rfl
  | unlock m =>
    obtain rfl : s' = s.withLock m none := h
    rfl
  | _ => exact congrArg Site.db h

/-! ### Computing an answer -/

/-- How a call is to be answered where that is open: as it should be, with an
    error, with an error after it took effect, or with a value from outside. -/
inductive Reply where
  | plain
  | fail
  | failLate
  | text (value : String)
  | texts (values : List String)
  | secret (value : TotpSecret)
  | flag (value : Bool)
  | email (value : String) (valid : Bool)

/-- A statement's answer and the state it leaves. -/
def answered {β σ : Type} (s : σ) : Except Err (β × σ) → Except Err β × σ
  | .ok (a, s') => (.ok a, s')
  | .error e => (.error e, s)

/-- The answer to a call of thread `i`; `none` if it cannot be answered so. -/
def Site.exec {β : Type} (k : Reply) (i : ℕ) (s : Site) : Call β → Option (β × Site)
  | .store q =>
    match k with
    | .plain =>
      let (r, db) := answered s.db (q.run s.db)
      some (r, { s with db := db })
    | _ => some (.error .driver, s)
  | .auth q =>
    match k with
    | .plain =>
      let (r, db) := answered s.db (q.run s.db)
      some (r, { s with db := db })
    | _ => some (.error .driver, s)
  | .hbaFileErrors =>
    match k with
    | .texts problems => some (.ok problems, s)
    | .plain => some (.ok [], s)
    | _ => some (.error .driver, s)
  | .pg q =>
    match k with
    | .plain =>
      let (r, pg) := answered s.pg (q.run s.pg)
      some (r, { s with pg := pg })
    | .failLate => some (.error .driver, { s with pg := (answered s.pg (q.run s.pg)).2 })
    | _ => some (.error .driver, s)
  | .file q =>
    match k with
    | .plain => some (.ok (s.file q).1, (s.file q).2)
    | _ => some (.error .driver, s)
  | .sealSecret projectID password =>
    match k with
    | .text value =>
      if value ∈ s.vault.map Sealing.text then none
      else some (value, { s with vault := ⟨value, projectID, password⟩ :: s.vault })
    | _ => none
  | .openSecret projectID sealedValue => some (s.opened projectID sealedValue, s)
  | .now => some (s.clock, s)
  | .lock m => if s.locks m = none then some ((), s.withLock m (some i)) else none
  | .tryLock m =>
    if s.locks m = none then some (true, s.withLock m (some i)) else some (false, s)
  | .unlock m => some ((), s.withLock m none)
  | .host _ =>
    match k with
    | .plain => some (.ok (), s)
    | _ => some (.error .driver, s)
  | .normalizeEmail value =>
    match k with
    | .email value valid => some ((value, valid), s)
    | _ => some ((value, true), s)
  | .token =>
    match k with
    | .text value => some (value, s)
    | _ => none
  | .tokens =>
    match k with
    | .texts values => some (values, s)
    | _ => none
  | .totpSecret =>
    match k with
    | .secret value => some (value, s)
    | _ => none
  | .allow =>
    match k with
    | .flag value => some (value, s)
    | _ => some (true, s)
  | .expired =>
    match k with
    | .flag value => some (value, s)
    | _ => some (false, s)
  | .bucket _ _ => some (.error .driver, s)
  | .storageClient => some (.error .driver, s)
  | .respond _ _ => some ((), s)

theorem Site.exec_replies {β : Type} {k : Reply} {i : ℕ} {s s' : Site} {c : Call β} {r : β}
    (h : s.exec k i c = some (r, s')) : Site.Replies everyFault i c s r s' := by
  -- a statement answers what it says, or fails
  have hanswered : ∀ {α σ : Type} (t : σ) (x : Except Err (α × σ)),
      (∃ a t', x = .ok (a, t') ∧ answered t x = (.ok a, t')) ∨
        ∃ e, x = .error e ∧ answered t x = (.error e, t) := by
    intro α σ t x
    cases x with
    | ok y => exact Or.inl ⟨y.1, y.2, rfl, rfl⟩
    | error e => exact Or.inr ⟨e, rfl, rfl⟩
  cases c with
  | store q | auth q =>
    simp only [exec] at h
    split at h
    · rcases hanswered s.db (q.run s.db) with ⟨a, db, hrun, heq⟩ | ⟨e, hrun, heq⟩
      · rw [heq] at h
        cases h
        exact Or.inl ⟨a, db, hrun, rfl, rfl⟩
      · rw [heq] at h
        cases h
        exact Or.inr ⟨e, rfl, Or.inl hrun, rfl⟩
    · cases h
      exact Or.inr ⟨_, rfl, Or.inr trivial, rfl⟩
  | pg q =>
    simp only [exec] at h
    split at h
    · rcases hanswered s.pg (q.run s.pg) with ⟨a, pg, hrun, heq⟩ | ⟨e, hrun, heq⟩
      · rw [heq] at h
        cases h
        exact Or.inl ⟨a, pg, hrun, Or.inl rfl, rfl⟩
      · rw [heq] at h
        cases h
        exact Or.inr ⟨e, rfl, Or.inl hrun, rfl⟩
    · cases h
      rcases hanswered s.pg (q.run s.pg) with ⟨a, pg, hrun, heq⟩ | ⟨e, hrun, heq⟩
      · rw [heq]
        exact Or.inl ⟨a, pg, hrun, Or.inr ⟨trivial, _, rfl⟩, rfl⟩
      · rw [heq]
        exact Or.inr ⟨_, rfl, Or.inr trivial, rfl⟩
    · cases h
      exact Or.inr ⟨_, rfl, Or.inr trivial, rfl⟩
  | file q =>
    simp only [exec] at h
    split at h
    · cases h
      exact Or.inl ⟨rfl, rfl⟩
    · cases h
      exact Or.inr ⟨trivial, ⟨_, rfl⟩, rfl⟩
  | sealSecret projectID password =>
    simp only [exec] at h
    split at h
    · split at h
      · cases h
      next hnew =>
      cases h
      exact ⟨hnew, rfl⟩
    · cases h
  | lock m =>
    simp only [exec] at h
    split at h
    · next hfree =>
      cases h
      exact ⟨hfree, rfl⟩
    · cases h
  | tryLock m =>
    simp only [exec] at h
    split at h
    · next hfree =>
      cases h
      exact Or.inl ⟨rfl, hfree, rfl⟩
    · next htaken =>
      cases h
      exact Or.inr ⟨rfl, htaken, rfl⟩
  | openSecret projectID sealedValue | now =>
    cases h
    exact ⟨rfl, rfl⟩
  | _ =>
    simp only [exec] at h
    first
      | (cases h; rfl)
      | (split at h <;> cases h <;> rfl)

end Pgfy
