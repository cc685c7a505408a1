import Pgfy.Framework.Triple
import Pgfy.Provision.LimitNotes

/-! # Limits in effect when they are recorded as applied

    What a role has set in its own database wins over its role-wide settings,
    so the limits of a project are in effect only where none of the four keys is
    set there. A pass over the limits removes those settings first, and goes on
    if that fails: it compares and sets the role-wide values and records the
    revision as applied all the same. Where no such removal fails for a role, the
    revision a pass records for its project is one whose limits are in effect.
-/

namespace Pgfy

open Calendar Program

/-! ### Limits in effect -/

/-- The role carries the limits, and nothing in its database overrides them. -/
def PgRole.Enforces (l : Limits) (r : PgRole) : Prop :=
  r.state.Carries l ∧ ∀ key ∈ limitKeys, Table.find Prod.fst key r.state.databaseSettings = none

instance (l : Limits) (r : PgRole) : Decidable (r.Enforces l) := by
  unfold PgRole.Enforces; infer_instance

def Postgres.Enforces (role : Text) (l : Limits) (pg : Postgres) : Prop :=
  ∃ r, pg.role role = some r ∧ r.Enforces l

/-- The constraints of the projects table, with databases named after their
    roles, as the application names them. -/
structure Database.OwnNames (db : Database) : Prop where
  ids : (db.projects.map Project.id).Nodup
  roles : (db.projects.map Project.roleName).Nodup
  database : ∀ p ∈ db.projects, p.dbName = p.roleName

/-! ### The log of a pass -/

/-- The removal of an override of the role that was answered with an error. -/
def Note.ResetFails (role : Text) (n : Note) : Prop :=
  ∃ database keys e, n.exchange = ⟨.pg (.resetDatabaseLimits role database keys), .error e⟩

/-- A revision was recorded as applied. -/
def Note.Records (id : String) (revision : ℕ) (n : Note) : Prop :=
  n.exchange = ⟨.store (.markLimitsApplied id revision), .ok ()⟩

/-- No removal has failed for the role so far. -/
def History.Smooth (role : Text) (h : History) : Prop := ∀ n ∈ h.log, ¬ n.ResetFails role

/-- What was recorded is the wanted revision, and its limits are in effect if no
    removal fails for the project's role. -/
def Note.Truthful (db : Database) (h : History) (n : Note) : Prop :=
  ∀ id revision, n.Records id revision → ∃ p l, db.project id = .ok p ∧
    db.projectLimits id = .ok l ∧ revision = l.revision ∧
    (h.Smooth p.roleName → n.after.pg.Enforces p.roleName l.limits)

/-- A pass on its own, of projects and limits as in `db`: the calls are answered
    one after the other, and any may fail. -/
def passSetting (db : Database) (i : ℕ) : Setting History Call where
  answer := fun _ h c r h' =>
    ∃ s, Site.Replies everyFault i c h.site r s ∧ h' = h.add (some i) c r s
  inv h := ∀ n ∈ h.log, n.Truthful db h
  rely := Eq
  guar := fun _ _ => True
  rely_refl _ := rfl
  rely_trans := Eq.trans

theorem passSetting_keeps {db : Database} {i : ℕ} (P : History → Prop) :
    (passSetting db i).Keeps P := by
  rintro h _ rfl hp
  exact hp

section
variable {db : Database} {i : ℕ} {β : Type} {c : Call β} {r : β} {h : History} {s : Site}
  {role : Text}

theorem History.Smooth.of_add (hs : (h.add (some i) c r s).Smooth role) : h.Smooth role :=
  fun n hn => hs n (List.mem_cons_of_mem _ hn)

/-- The calls that record nothing as applied. -/
def Call.RecordsNothing {β : Type} : Call β → Prop
  | .store (.markLimitsApplied ..) => False
  | _ => True

theorem Call.RecordsNothing.truthful (hc : c.RecordsNothing) {before after : Site} :
    Note.Truthful db h ⟨some i, c, r, before, after⟩ := by
  intro id revision hn
  unfold Note.Records Note.exchange at hn
  cases hn
  exact hc.elim

/-- The invariant after one more call: only the new note matters. -/
theorem passSetting_add (hi : (passSetting db i).inv h)
    (hnew : Note.Truthful db (h.add (some i) c r s) ⟨some i, c, r, h.site, s⟩) :
    (passSetting db i).inv (h.add (some i) c r s) := by
  intro n hn
  rcases List.mem_cons.mp hn with rfl | hn
  · exact hnew
  · intro id revision hrecords
    obtain ⟨p, l, hp, hl, hwanted, henforces⟩ := hi n hn id revision hrecords
    exact ⟨p, l, hp, hl, hwanted, fun hs => henforces hs.of_add⟩

/-- A call that records nothing, with what is known after it. -/
theorem pass_ask {P : History → Prop} {Q : β → History → Prop} (hc : c.RecordsNothing)
    (hQ : ∀ h r s, P h → Site.Replies everyFault i c h.site r s → Q r (h.add (some i) c r s)) :
    Triple (passSetting db i) P (Prog.ask c) Q := by
  refine Triple.ask (fun _ => passSetting_keeps _) ?_
  rintro h r _ hi hp ⟨s, hr, rfl⟩
  exact ⟨passSetting_add hi hc.truthful, trivial, hQ h r s hp hr⟩

end

/-! ### Removing overrides -/

/-- The role as it was read, with at most these of the limit keys left in its
    database. -/
structure PgRole.Cleared (state : RoleState) (keys : List String) (r : PgRole) : Prop where
  settings : r.state.settings = state.settings
  connectionLimit : r.state.connectionLimit = state.connectionLimit
  rest : ∀ key ∈ limitKeys, key ∉ keys →
    Table.find Prod.fst key r.state.databaseSettings = none

def Postgres.Cleared (role : Text) (state : RoleState) (keys : List String) (pg : Postgres) :
    Prop :=
  ∃ r, pg.role role = some r ∧ r.Cleared state keys

section
variable {pg pg' : Postgres} {role : Text} {r : PgRole} {state : RoleState} {keys : List String}

theorem Postgres.role_name (h : pg.role role = some r) : r.name = role :=
  (Table.find_eq_some h).2

theorem Postgres.role_alterRole {f : PgRole → PgRole} (h : pg.alterRole role f = .ok ((), pg'))
    (hr : pg.role role = some r) (hname : ∀ r, (f r).name = r.name) :
    pg'.role role = some (f r) := by
  obtain rfl := alterRole_ok h
  have hfind := @Table.find_modify _ _ _ PgRole.name role f pg.roles
    (fun r hr => (hname r).trans hr)
  rw [show Table.find PgRole.name role pg.roles = some r from hr] at hfind
  exact hfind

/-- Before the first removal. -/
theorem PgRole.cleared_overrides (l : Limits) (hr : r.state = state) :
    r.Cleared state (overrides l state) := by
  refine ⟨by rw [hr], by rw [hr], fun key hkey hnot => ?_⟩
  rw [hr]
  -- a limit key that is not an override is not set
  rw [overrides, limitSettings_keys, List.mem_filter, not_and] at hnot
  simpa using hnot hkey

theorem PgRole.Cleared.resetIn {key : String} (h : r.Cleared state (key :: keys)) :
    (r.resetIn r.name [key]).Cleared state keys := by
  refine ⟨by simp [h.settings], by simp [h.connectionLimit], fun key' hkey' hnot => ?_⟩
  have hsettings : (r.resetIn r.name [key]).state.databaseSettings =
      Table.delete Prod.fst key r.state.databaseSettings := by
    simp [PgRole.resetIn, Table.delete]
  rw [hsettings]
  by_cases heq : key' = key
  · rw [heq, Table.find_eq_none]
    exact fun kv hkv => (Table.mem_delete.mp hkv).2
  · rw [Table.find_delete_of_ne heq]
    exact h.rest key' hkey' (by simp [heq, hnot])

/-- A removal that succeeds takes its key. -/
theorem Postgres.Cleared.reset {key : String} (h : pg.Cleared role state (key :: keys))
    (hrun : (PgCall.resetDatabaseLimits role role [key]).run pg = .ok ((), pg')) :
    pg'.Cleared role state keys := by
  obtain ⟨r, hr, hcleared⟩ := h
  refine ⟨_, role_alterRole hrun hr (PgRole.resetIn_name role [key]), ?_⟩
  rw [← role_name hr]
  exact hcleared.resetIn

/-- Setting the limits leaves what is set in the database. -/
theorem Postgres.Cleared.applyLimits {l : Limits} (h : pg.Cleared role state [])
    (hrun : (PgCall.applyLimits role (limitSettings l) l.connectionLimit).run pg = .ok ((), pg')) :
    pg'.Enforces role l := by
  obtain ⟨r, hr, hcleared⟩ := h
  obtain ⟨r', hr', hcarries⟩ := carries_applyLimits hrun
  refine ⟨r', hr', hcarries, fun key hkey => ?_⟩
  have hrole := role_alterRole hrun hr (fun _ => rfl)
  obtain rfl := Option.some.inj (hr'.symm.trans hrole)
  exact hcleared.rest key hkey List.not_mem_nil

/-- A role that already carries the limits. -/
theorem Postgres.Cleared.enforces {l : Limits} (h : pg.Cleared role state [])
    (hdrift : drifted l state = false) : pg.Enforces role l := by
  obtain ⟨r, hr, hcleared⟩ := h
  obtain ⟨hsettings, hlimit⟩ := drifted_eq_false.mp hdrift
  refine ⟨r, hr, ⟨fun kv hkv => ?_, hcleared.connectionLimit.trans hlimit⟩,
    fun key hkey => hcleared.rest key hkey List.not_mem_nil⟩
  rw [hcleared.settings]
  exact hsettings kv hkv

end

/-! ### One project -/

/-- Unless a removal has failed for it, the role is as `Cleared` says. -/
def History.Clears (role : Text) (state : RoleState) (keys : List String) (h : History) : Prop :=
  h.Smooth role → h.site.pg.Cleared role state keys

section
variable {db : Database} {i : ℕ} {states : List (Text × RoleState)} {x : Project × ProjectLimits}
  {role : Text} {state : RoleState}

theorem triple_resetKey {key : String} {keys : List String} :
    Triple (passSetting db i) (History.Clears role state (key :: keys))
      (pg (.resetDatabaseLimits role role [key]))
      (Ends (fun _ => History.Clears role state keys) (fun _ h => ¬ h.Smooth role)) := by
  refine pass_ask trivial (fun h r s hclears hr => ?_)
  cases r with
  | error e => exact fun hs => hs _ List.mem_cons_self ⟨role, [key], e, rfl⟩
  | ok u =>
    intro hs
    rcases hr with ⟨a, pg, hrun, -, rfl⟩ | ⟨e, he, -⟩
    · exact (hclears hs.of_add).reset hrun
    · cases he

theorem triple_resetDatabaseLimits (hrole : validName role = true) {keys : List String}
    (hkeys : ∀ key ∈ keys, key ∈ limitKeys) :
    Triple (passSetting db i) (History.Clears role state keys)
      (resetDatabaseLimits role role keys)
      (Ends (fun _ => History.Clears role state []) (fun _ h => ¬ h.Smooth role)) := by
  unfold resetDatabaseLimits
  rw [hrole]
  change Triple _ _ (Action.forEach _ keys) _
  induction keys with
  | nil => exact Triple.done (fun _ h => h)
  | cons key rest ih =>
    obtain ⟨hkey, hrest⟩ := List.forall_mem_cons.mp hkeys
    refine Triple.seq ?_ (fun _ => ih hrest)
    have hlimit : ((limitSettings ⟨0, 0, -1, 0, 0⟩).any (·.1 = key)) = true := by
      obtain ⟨kv, hkv, rfl⟩ := List.mem_map.mp ((limitSettings_keys ⟨0, 0, -1, 0, 0⟩).symm ▸ hkey)
      exact List.any_eq_true.mpr ⟨kv, hkv, decide_eq_true rfl⟩
    simp only [hlimit]
    exact triple_resetKey

theorem triple_removeOverrides (hname : validName x.1.roleName = true)
    (hdatabase : x.1.dbName = x.1.roleName) :
    Triple (passSetting db i) (History.Clears x.1.roleName state (overrides x.2.limits state))
      (removeOverrides x state) (fun _ => History.Clears x.1.roleName state []) := by
  have hkeys : ∀ key ∈ overrides x.2.limits state, key ∈ limitKeys := by
    intro key hkey
    rw [overrides, limitSettings_keys] at hkey
    exact (List.mem_filter.mp hkey).1
  unfold removeOverrides
  rw [hdatabase]
  split
  · refine Triple.bind (triple_resetDatabaseLimits hname hkeys) (fun r => ?_)
    refine Triple.ret (fun h hend => ?_)
    cases r with
    | ok u => exact hend
    | error e => exact fun hs => absurd hs hend
  · next hnone =>
    rw [not_not] at hnone
    rw [hnone]
    exact Triple.ret (fun _ h => h)

/-- Recording the wanted revision while its limits are in effect. -/
theorem triple_markLimitsApplied (hproject : db.project x.1.id = .ok x.1)
    (hlimits : db.projectLimits x.1.id = .ok x.2) :
    Triple (passSetting db i)
      (fun h => h.Smooth x.1.roleName → h.site.pg.Enforces x.1.roleName x.2.limits)
      (store (.markLimitsApplied x.1.id x.2.revision)) (fun _ _ => True) := by
  refine Triple.ask (fun _ => passSetting_keeps _) ?_
  rintro h r _ hi henforces ⟨s, hr, rfl⟩
  refine ⟨passSetting_add hi (fun id revision hn => ?_), trivial, trivial⟩
  -- the store's answer leaves PostgreSQL as it was
  have hpg : s.pg = h.site.pg := by
    rcases hr with ⟨a, db', -, -, rfl⟩ | ⟨e, -, -, rfl⟩ <;> rfl
  unfold Note.Records Note.exchange at hn
  cases hn
  refine ⟨x.1, x.2, hproject, hlimits, rfl, fun hs => ?_⟩
  show s.pg.Enforces x.1.roleName x.2.limits
  rw [hpg]
  exact henforces hs.of_add

theorem triple_applyLimits (hproject : db.project x.1.id = .ok x.1)
    (hlimits : db.projectLimits x.1.id = .ok x.2) :
    Triple (passSetting db i) (History.Clears x.1.roleName state [])
      (applyLimits x.1.id x.1.roleName x.2) (fun _ _ => True) := by
  have hset : Triple (passSetting db i) (History.Clears x.1.roleName state [])
      (applyRoleLimits x.1.roleName (limitSettings x.2.limits) x.2.limits.connectionLimit)
      (Ends (fun _ h => h.Smooth x.1.roleName → h.site.pg.Enforces x.1.roleName x.2.limits)
        (fun _ _ => True)) := by
    unfold applyRoleLimits Go.ensure
    split
    · refine pass_ask trivial (fun h r s hclears hr => ?_)
      cases r with
      | error e => trivial
      | ok u =>
        intro hs
        rcases hr with ⟨a, pg, hrun, -, rfl⟩ | ⟨e, he, -⟩
        · exact (hclears hs.of_add).applyLimits hrun
        · cases he
    · exact Triple.fail (fun _ _ => trivial)
  refine Triple.bind hset (fun r => ?_)
  cases r with
  | ok u => exact triple_markLimitsApplied hproject hlimits
  | error e => exact Triple.ret (fun _ _ => trivial)

theorem triple_repairLimits (hproject : db.project x.1.id = .ok x.1)
    (hlimits : db.projectLimits x.1.id = .ok x.2) :
    Triple (passSetting db i) (History.Clears x.1.roleName state []) (repairLimits x state)
      (fun _ _ => True) := by
  unfold repairLimits
  split
  · refine Triple.bind (triple_applyLimits hproject hlimits) (fun r => ?_)
    cases r with
    | ok u => exact Triple.ret (fun _ _ => trivial)
    | error e =>
      exact Triple.bind (pass_ask (Q := fun _ _ => True) trivial (fun _ _ _ _ _ => trivial))
        (fun _ => Triple.ret (fun _ _ => trivial))
  next hdrift =>
  split
  · -- the revision is recorded without a statement on the role
    refine Triple.bind ((triple_markLimitsApplied hproject hlimits).pre ?_)
      (fun _ => Triple.ret (fun _ _ => trivial))
    exact fun h hclears hs => (hclears hs).enforces (by simpa using hdrift)
  · exact Triple.ret (fun _ _ => trivial)

/-- The role is as the pass has read it. -/
def Site.AsRead (states : List (Text × RoleState)) (role : Text) (s : Site) : Prop :=
  ∀ kv, Table.find Prod.fst role states = some kv →
    validName role = true ∧ ∃ r, s.pg.role role = some r ∧ r.state = kv.2

theorem triple_syncProjectLimits (hproject : db.project x.1.id = .ok x.1)
    (hlimits : db.projectLimits x.1.id = .ok x.2) (hdatabase : x.1.dbName = x.1.roleName) :
    Triple (passSetting db i) (fun h => h.site.AsRead states x.1.roleName)
      (syncProjectLimits states x) (fun _ _ => True) := by
  unfold syncProjectLimits
  split
  · exact Triple.ret (fun _ _ => trivial)
  next key state hfind =>
  by_cases hname : validName x.1.roleName = true
  · refine Triple.bind ((triple_removeOverrides hname hdatabase).pre (fun h hread _ => ?_))
      (fun _ => triple_repairLimits hproject hlimits)
    obtain ⟨-, r, hr, hstate⟩ := hread _ hfind
    exact ⟨r, hr, PgRole.cleared_overrides x.2.limits hstate⟩
  · exact Triple.vacuous (fun h hread => hname (hread _ hfind).1)

/-! ### The pass -/

/-- What the pass has listed of a project. -/
structure Database.Lists (db : Database) (x : Project × ProjectLimits) : Prop where
  project : db.project x.1.id = .ok x.1
  limits : db.projectLimits x.1.id = .ok x.2
  database : x.1.dbName = x.1.roleName

theorem Database.OwnNames.lists (h : db.OwnNames) (hx : x ∈ db.readyProjectLimits) :
    db.Lists x := by
  obtain ⟨hmem, -, hfind⟩ := mem_readyProjectLimits hx
  refine ⟨?_, ?_, h.database _ hmem⟩
  · rw [Database.project, Table.find_of_mem h.ids hmem]
  · rw [Database.projectLimits, hfind]

/-- No two projects of a listing have one role. -/
theorem Database.OwnNames.roles_distinct (h : db.OwnNames) :
    (db.readyProjectLimits.map (fun x => x.1.roleName)).Nodup := by
  have hids := List.Nodup.of_map _ (readyProjectLimits_distinct h.ids)
  refine List.Nodup.map_on (fun x hx y hy hrole => ?_) hids
  have hproject : x.1 = y.1 := List.inj_on_of_nodup_map h.roles
    (mem_readyProjectLimits hx).1 (mem_readyProjectLimits hy).1 hrole
  have hlimits := (h.lists hy).limits
  rw [← hproject, (h.lists hx).limits] at hlimits
  exact Prod.ext hproject (Except.ok.inj hlimits)

theorem triple_syncEach {rest : List (Project × ProjectLimits)} (hlists : ∀ x ∈ rest, db.Lists x)
    (hdistinct : (rest.map (fun x => x.1.roleName)).Nodup) :
    Triple (passSetting db i) (fun h => ∀ x ∈ rest, h.site.AsRead states x.1.roleName)
      (Run.forEach (syncProjectLimits states) rest) (fun _ _ => True) := by
  induction rest with
  | nil => exact Triple.ret (fun _ _ => trivial)
  | cons x rest ih =>
    obtain ⟨hx, hlists⟩ := List.forall_mem_cons.mp hlists
    obtain ⟨hnew, hdistinct⟩ := List.nodup_cons.mp hdistinct
    have hone : Triple (passSetting db i) (fun h => h.site.AsRead states x.1.roleName)
        (syncProjectLimits states x) (fun _ _ => True) :=
      triple_syncProjectLimits hx.project hx.limits hx.database
    -- the roles of the projects still to come are left alone
    have hframe := hone.frame (X := fun h => ∀ y ∈ rest, h.site.AsRead states y.1.roleName)
      (passSetting_keeps _) ?_ syncProjectLimits_spares
    · refine Triple.bind (hframe.mono ?_ (fun _ h hpost => hpost.2)) (fun _ => ih hlists hdistinct)
      exact fun h hread => List.forall_mem_cons.mp hread
    rintro β c hc h r _ - hread ⟨s, hr, rfl⟩ y hy kv hkv
    obtain ⟨hname, role, hrole, hstate⟩ := hread y hy kv hkv
    refine ⟨hname, role, ?_, hstate⟩
    have hother : x.1.roleName ≠ y.1.roleName := fun heq =>
      hnew (List.mem_map.mpr ⟨y, hy, heq.symm⟩)
    exact (((hc _).resolve_right hother).replies hr).trans hrole

/-- Only roles with generated names are read. -/
theorem Postgres.asRead_roleStates {s : Site} (role : Text) :
    s.AsRead ((s.pg.roles.filter (fun r => validName r.name)).map (fun r => (r.name, r.state)))
      role := by
  intro kv hkv
  refine ⟨?_, find_roleStates hkv⟩
  obtain ⟨hmem, hkey⟩ := Table.find_eq_some hkv
  obtain ⟨r, hr, rfl⟩ := List.mem_map.mp hmem
  rw [← hkey]
  exact (List.mem_filter.mp hr).2

theorem triple_syncLimitsLocked (hnames : db.OwnNames) :
    Triple (passSetting db i) (fun h => h.site.db = db) syncLimitsLocked (fun _ _ => True) := by
  have hlist : Triple (passSetting db i) (fun h => h.site.db = db) (store .readyProjectLimits)
      (Ends (fun listing _ => listing = db.readyProjectLimits) (fun _ _ => True)) := by
    refine pass_ask trivial ?_
    rintro h r s hdb (⟨a, db', hrun, rfl, -⟩ | ⟨e, rfl, -⟩)
    · cases hrun
      exact congrArg Database.readyProjectLimits hdb
    · trivial
  have hread : Triple (passSetting db i) (fun _ => True) (pg .roleStates)
      (Ends (fun states h => ∀ role, h.site.AsRead states role) (fun _ _ => True)) := by
    refine pass_ask trivial ?_
    rintro h r s - (⟨a, pg, hrun, hr, rfl⟩ | ⟨e, rfl, -⟩)
    · cases hrun
      rcases hr with rfl | ⟨-, e, rfl⟩
      · exact Postgres.asRead_roleStates
      · trivial
    · trivial
  refine Triple.bind hlist (fun r => ?_)
  cases r with
  | error e => exact Triple.ret (fun _ _ => trivial)
  | ok listing =>
    cases listing with
    | nil => exact Triple.ret (fun _ _ => trivial)
    | cons x rest =>
      by_cases hlisting : x :: rest = db.readyProjectLimits
      · refine Triple.bind (hread.pre (fun _ _ => trivial)) (fun r => ?_)
        cases r with
        | error e => exact Triple.ret (fun _ _ => trivial)
        | ok states =>
          rw [hlisting]
          refine (triple_syncEach (fun y hy => hnames.lists hy) hnames.roles_distinct).pre ?_
          exact fun h hroles y _ => hroles y.1.roleName
      · exact Triple.vacuous (fun h heq => hlisting heq)

theorem triple_syncLimits (hnames : db.OwnNames) :
    Triple (passSetting db i) (fun h => h.site.db = db) syncLimits (fun _ _ => True) := by
  refine Triple.bind (pass_ask (Q := fun _ h => h.site.db = db) trivial ?_) (fun _ => ?_)
  · rintro h r s hdb ⟨-, rfl⟩
    exact hdb
  refine Triple.bind (triple_syncLimitsLocked hnames) (fun _ => ?_)
  exact pass_ask trivial (fun _ _ _ _ _ => trivial)

end

/-- In every run of a pass, to any point: each revision it records as applied is
    the wanted one; and unless the removal of an override of the project's role
    is answered with an error, its limits are in effect, with no override left. -/
theorem recorded_limits_in_effect {s : Site} (hnames : s.db.OwnNames) {i : ℕ} {o : Option Unit}
    {h : History}
    (hrun : Trace (passSetting s.db i).answer (fun _ _ => False) syncLimits ⟨s, []⟩ o h) :
    ∀ n ∈ h.log, n.Truthful s.db h := by
  have hsafe := (triple_syncLimits (i := i) hnames).safe (passSetting_keeps _)
    (s := ⟨s, []⟩) rfl
  refine (Safe.trace (fun _ _ hf => hf.elim) (fun _ _ hf => hf.elim) hrun ?_ hsafe).1
  exact fun n hn => absurd hn List.not_mem_nil

/-! ### Two passes -/

/-- The revision a call asks to record. -/
def StoreCall.revision {β : Type} : StoreCall β → Option (String × ℕ)
  | .markLimitsApplied id revision => some (id, revision)
  | _ => none

def PgCall.isReset {β : Type} : PgCall β → Bool
  | .resetDatabaseLimits _ _ _ => true
  | _ => false

/-- The revision a call is told to have recorded. -/
def Call.recorded {β : Type} : Call β → β → Option (String × ℕ)
  | .store q => fun r => if r.isOk then q.revision else none
  | _ => fun _ => none

/-- The call is a removal, and is told that it has failed. -/
def Call.resetFailed {β : Type} : Call β → β → Bool
  | .pg q => fun r => q.isReset && !r.isOk
  | _ => fun _ => false

theorem Note.records_of_recorded {n : Note} {id : String} {revision : ℕ}
    (h : n.call.recorded n.answer = some (id, revision)) : n.Records id revision := by
  obtain ⟨i, c, r, before, after⟩ := n
  simp only at h
  cases c with
  | store q =>
    cases r with
    | error e => cases h
    | ok a =>
      change q.revision = some (id, revision) at h
      unfold StoreCall.revision at h
      split at h
      · cases h
        rfl
      · cases h
  | _ => cases h

theorem Note.ResetFails.eq_true {role : Text} {n : Note} (h : n.ResetFails role) :
    n.call.resetFailed n.answer = true := by
  obtain ⟨i, c, r, before, after⟩ := n
  obtain ⟨database, keys, e, heq⟩ := h
  cases heq
  rfl

/-- A ready project whose role carries the wanted limits, not yet recorded as
    applied, and has turned the statement timeout off in its own database. -/
def overriddenSite : Site where
  config := { id := "i", mode := .tunnel, generation := "g", origin := "o" }
  db := {
    projects := [limitsProject]
    limits := [⟨"p", .default, 1, 0, "", 1⟩] }
  pg := { roles := [{ limitsRole with state := ⟨limitSettings .default,
    [("statement_timeout", "0")], Limits.default.connectionLimit⟩ }] }

/-- A pass from there, its calls answered as the list says. -/
def overriddenPass (replies : List Reply) : Option (Unit × History) :=
  syncLimits.follow (fun _ k h c => History.exec k 0 h c) replies ⟨overriddenSite, []⟩

theorem overriddenPass_trace {replies : List Reply} {h : History}
    (hp : overriddenPass replies = some ((), h)) :
    Trace (passSetting overriddenSite.db 0).answer (fun _ _ => False) syncLimits
      ⟨overriddenSite, []⟩ (some ()) h :=
  Prog.follow_trace (fun _ _ _ _ _ _ he => History.exec_spec he) hp

theorem overriddenSite_ownNames : overriddenSite.db.OwnNames :=
  ⟨by decide, by decide, by decide⟩

/-- Without a failure the override is gone when the revision is recorded. -/
theorem recorded_limits_in_effect_once :
    ∃ h n, overriddenPass (List.replicate 6 .plain) = some ((), h) ∧ n ∈ h.log ∧
      n.Records "p" 1 ∧ n.after.pg.Enforces limitsName .default := by
  have hplayed : (overriddenPass (List.replicate 6 .plain)).map (fun x =>
      (x.2.log.map (fun n => n.call.recorded n.answer),
        x.2.log.any (fun n => n.call.resetFailed n.answer))) =
      some ([none, some ("p", 1), none, none, none, none], false) := by decide +kernel
  obtain ⟨⟨⟨⟩, h⟩, hp, hpair⟩ := Option.map_eq_some_iff.mp hplayed
  obtain ⟨hlog, hsmooth⟩ := Prod.mk.inj hpair
  obtain ⟨n, hn, hrecorded⟩ := List.mem_map.mp
    (hlog ▸ by simp : some ("p", 1) ∈ h.log.map (fun n => n.call.recorded n.answer))
  have hrecords := Note.records_of_recorded hrecorded
  refine ⟨h, n, hp, hn, hrecords, ?_⟩
  obtain ⟨p, l, hproject, hlimits, -, henforces⟩ := recorded_limits_in_effect
    overriddenSite_ownNames (overriddenPass_trace hp) n hn "p" 1 hrecords
  cases hproject
  cases hlimits
  exact henforces (fun n hn hfails => List.any_eq_false.mp hsmooth n hn hfails.eq_true)

/-- If the removal of the override fails, the pass still records the revision as
    applied, and the override is left: no statement timeout is in effect. -/
theorem recorded_with_override :
    ∃ h n, Trace (passSetting overriddenSite.db 0).answer (fun _ _ => False) syncLimits
        ⟨overriddenSite, []⟩ (some ()) h ∧ n ∈ h.log ∧ n.Records "p" 1 ∧
      (n.after.pg.role limitsName).map (·.state.databaseSettings) =
        some [("statement_timeout", "0")] := by
  have hplayed : (overriddenPass [.plain, .plain, .plain, .fail, .plain, .plain]).map (fun x =>
      x.2.log.map (fun n => (n.call.recorded n.answer,
        (n.after.pg.role limitsName).map (·.state.databaseSettings)))) =
      some (none :: some ("p", 1) :: List.replicate 4 none |>.map
        (·, some [("statement_timeout", "0")])) := by decide +kernel
  obtain ⟨⟨⟨⟩, h⟩, hp, hlog⟩ := Option.map_eq_some_iff.mp hplayed
  obtain ⟨n, hn, hpair⟩ := List.mem_map.mp (hlog ▸ by simp :
    (some ("p", 1), some [("statement_timeout", "0")]) ∈ h.log.map (fun n =>
      (n.call.recorded n.answer, (n.after.pg.role limitsName).map (·.state.databaseSettings))))
  obtain ⟨hrecorded, hsettings⟩ := Prod.mk.inj hpair
  exact ⟨h, n, overriddenPass_trace hp, hn, Note.records_of_recorded hrecorded, hsettings⟩

end Pgfy
