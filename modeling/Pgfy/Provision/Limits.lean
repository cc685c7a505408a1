import Pgfy.Framework.Ownership
import Pgfy.Provision.Provisioner
import Pgfy.Site.History

/-! # Limits in force

    A revision of a project's limits is recorded by anybody at any time, and
    carried to the role by provisioning, as long as the project is not ready,
    and by the passes over the limits from then on. The two never work on the
    same project: provisioning holds the project's lock, a pass the lock of the
    limits, and which of the two locks counts is decided by the recorded stage.
-/

namespace Pgfy

open Calendar Program

/-! ### What a role carries -/

/-- The role has the four settings and the connection limit. -/
def RoleState.Carries (l : Limits) (st : RoleState) : Prop :=
  (∀ kv ∈ limitSettings l, Table.find Prod.fst kv.1 st.settings = some kv) ∧
    st.connectionLimit = l.connectionLimit

instance (l : Limits) (st : RoleState) : Decidable (st.Carries l) := by
  unfold RoleState.Carries; infer_instance

def Postgres.Carries (role : Text) (l : Limits) (pg : Postgres) : Prop :=
  ∃ r, pg.role role = some r ∧ r.state.Carries l

theorem limitSettings_keys (l : Limits) : (limitSettings l).map Prod.fst = limitKeys := rfl

theorem limitSettings_value_ne_empty {l : Limits} {kv : String × String}
    (h : kv ∈ limitSettings l) : kv.2 ≠ "" := by
  intro hempty
  have hlen : kv.2.length = 0 := by rw [hempty]; rfl
  simp only [limitSettings, List.mem_cons, List.not_mem_nil, or_false] at h
  rcases h with rfl | rfl | rfl | rfl
  · simp [String.length_append] at hlen
  · simp [String.length_append] at hlen
  · dsimp only at hlen
    split at hlen
    · simp at hlen
    · simp [String.length_append] at hlen
  · simp [String.length_append] at hlen

/-- A pass sees no drift exactly where the role carries the limits. -/
theorem drifted_eq_false {l : Limits} {st : RoleState} : drifted l st = false ↔ st.Carries l := by
  simp only [drifted, RoleState.Carries, Bool.or_eq_false_iff, decide_eq_false_iff_not, not_not,
    List.any_eq_false, decide_eq_true_eq]
  constructor
  · rintro ⟨hlimit, hsettings⟩
    refine ⟨fun kv hkv => ?_, hlimit⟩
    have hvalue := hsettings kv hkv
    unfold settingOf at hvalue
    cases hfind : Table.find Prod.fst kv.1 st.settings with
    | none =>
      rw [hfind] at hvalue
      exact absurd hvalue.symm (limitSettings_value_ne_empty hkv)
    | some kv' =>
      rw [hfind] at hvalue
      exact congrArg some (Prod.ext (Table.find_eq_some hfind).2 hvalue)
  · rintro ⟨hsettings, hlimit⟩
    refine ⟨hlimit, fun kv hkv => ?_⟩
    rw [settingOf, hsettings kv hkv]
    rfl

/-! ### Statements on PostgreSQL -/

theorem find_setAll_of_notMem {new old : List (String × String)} {key : String}
    (h : key ∉ new.map Prod.fst) :
    Table.find Prod.fst key (setAll new old) = Table.find Prod.fst key old := by
  induction new generalizing old with
  | nil => rfl
  | cons kv rest ih =>
    obtain ⟨hne, hrest⟩ : key ≠ kv.1 ∧ key ∉ rest.map Prod.fst := by
      simpa only [List.map_cons, List.mem_cons, not_or] using h
    show Table.find Prod.fst key (setAll rest _) = _
    rw [ih hrest]
    exact Table.find_upsert_of_ne rfl hne

theorem find_setAll_of_mem {new old : List (String × String)} (hn : (new.map Prod.fst).Nodup)
    {kv : String × String} (h : kv ∈ new) :
    Table.find Prod.fst kv.1 (setAll new old) = some kv := by
  induction new generalizing old with
  | nil => cases h
  | cons kv' rest ih =>
    obtain ⟨hnew, hrest⟩ := List.nodup_cons.mp (List.map_cons ▸ hn)
    show Table.find Prod.fst kv.1 (setAll rest _) = _
    rcases List.mem_cons.mp h with rfl | hmem
    · rw [find_setAll_of_notMem hnew]
      exact Table.find_upsert_self rfl
    · exact ih hrest hmem

section
variable {pg pg' : Postgres} {role role' : Text} {l : Limits}

theorem Postgres.alterRole_ok {f : PgRole → PgRole} (h : pg.alterRole role f = .ok ((), pg')) :
    pg' = { pg with roles := Table.modify PgRole.name role f pg.roles } := by
  unfold alterRole at h
  split at h
  · cases h
  · cases h
    rfl

/-- A change to a role that does not touch its name, its settings or its limit. -/
theorem Postgres.carries_alterRole {f : PgRole → PgRole} (hname : ∀ r, (f r).name = r.name)
    (hf : ∀ r l, (f r).state.Carries l ↔ r.state.Carries l)
    (h : pg.alterRole role f = .ok ((), pg')) : pg'.Carries role' l ↔ pg.Carries role' l := by
  obtain rfl := alterRole_ok h
  unfold Carries Postgres.role
  by_cases heq : role' = role
  · subst heq
    rw [show ({ pg with roles := Table.modify PgRole.name role' f pg.roles } : Postgres).roles =
      Table.modify PgRole.name role' f pg.roles from rfl, Table.find_modify]
    swap
    · exact fun r hr => (hname r).trans hr
    cases Table.find PgRole.name role' pg.roles with
    | none => simp
    | some r => simp [hf]
  · rw [show ({ pg with roles := Table.modify PgRole.name role f pg.roles } : Postgres).roles =
      Table.modify PgRole.name role f pg.roles from rfl, Table.find_modify_of_ne]
    · exact fun r hr => (hname r).trans hr
    · exact heq

/-- The statements that leave alone which limits the roles carry. -/
def PgCall.Mild {β : Type} : PgCall β → Prop
  | applyLimits .. => False
  | dropRole .. => False
  | _ => True

/-- Creating a role: before it there was none, and a new one carries no limits. -/
theorem Postgres.carries_createRole {password : String} {connectionLimit : ℤ}
    (h : (PgCall.createRole role password connectionLimit).run pg = .ok ((), pg')) :
    pg'.Carries role' l ↔ pg.Carries role' l := by
  simp only [PgCall.run] at h
  split at h
  · cases h
  next hnone =>
  cases h
  unfold Carries Postgres.role
  unfold Postgres.role at hnone
  simp only [Table.find, List.find?_append] at hnone ⊢
  by_cases heq : role' = role
  · subst heq
    rw [hnone]
    simp [RoleState.Carries, limitSettings, Table.find]
  · simp [Ne.symm heq]

/-- The write freeze is another setting. -/
theorem RoleState.carries_setReadOnly {on : Bool} (st : RoleState) (l : Limits) :
    RoleState.Carries l { st with
      settings :=
        if on then setAll [("default_transaction_read_only", "on")] st.settings
        else st.settings.filter (fun kv => kv.1 ≠ "default_transaction_read_only") } ↔
      st.Carries l := by
  have hkeys : ∀ kv ∈ limitSettings l, kv.1 ≠ "default_transaction_read_only" := by
    intro kv hkv
    have hkey : kv.1 ∈ limitKeys := limitSettings_keys l ▸ List.mem_map_of_mem hkv
    rintro heq
    rw [heq] at hkey
    revert hkey
    decide
  refine and_congr (forall₂_congr (fun kv hkv => ?_)) Iff.rfl
  cases on with
  | true =>
    rw [if_pos rfl, find_setAll_of_notMem]
    simpa using hkeys kv hkv
  | false =>
    rw [if_neg (by simp)]
    rw [show (st.settings.filter fun kv => kv.1 ≠ "default_transaction_read_only") =
      Table.delete Prod.fst "default_transaction_read_only" st.settings from rfl,
      Table.find_delete_of_ne (hkeys kv hkv)]

theorem PgCall.carries_run {β : Type} {q : PgCall β} {a : β} (hq : q.Mild)
    (h : q.run pg = .ok (a, pg')) : pg'.Carries role' l ↔ pg.Carries role' l := by
  cases q with
  | applyLimits => cases hq
  | dropRole => cases hq
  | createRole role password connectionLimit => exact Postgres.carries_createRole h
  | setPassword role password | disableLogin role =>
    refine Postgres.carries_alterRole ?_ ?_ h
    · exact fun _ => rfl
    · exact fun _ _ => Iff.rfl
  | resetDatabaseLimits role database keys =>
    refine Postgres.carries_alterRole ?_ ?_ h
    · exact PgRole.resetIn_name database keys
    · intro r l
      simp [RoleState.Carries]
  | setReadOnly role on =>
    refine Postgres.carries_alterRole ?_ ?_ h
    · exact fun _ => rfl
    · exact fun r l => r.state.carries_setReadOnly l
  | createDatabase name owner | dropDatabase name =>
    simp only [run] at h
    split at h
    · cases h
    · cases h
      exact Iff.rfl
  | revokePublic name =>
    simp only [run] at h
    split at h
    · cases h
      exact Iff.rfl
    · cases h
  | _ =>
    cases h
    exact Iff.rfl

/-- After the limits were set the role carries them. -/
theorem Postgres.carries_applyLimits
    (h : (PgCall.applyLimits role (limitSettings l) l.connectionLimit).run pg = .ok ((), pg')) :
    pg'.Carries role l := by
  simp only [PgCall.run] at h
  have hrole : ∃ r, pg.role role = some r := by
    unfold alterRole at h
    split at h
    · cases h
    · next r hr => exact ⟨r, hr⟩
  obtain ⟨r, hr⟩ := hrole
  obtain rfl := alterRole_ok h
  unfold Carries Postgres.role at *
  rw [Table.find_modify]
  swap
  · exact fun _ hname => hname
  rw [hr]
  refine ⟨_, rfl, fun kv hkv => ?_, rfl⟩
  exact find_setAll_of_mem (by rw [limitSettings_keys]; decide) hkv

/-- Other roles carry what they did. -/
theorem Postgres.carries_applyLimits_of_ne {settings : List (String × String)}
    {connectionLimit : ℤ} (hne : role' ≠ role)
    (h : (PgCall.applyLimits role settings connectionLimit).run pg = .ok ((), pg')) :
    pg'.Carries role' l ↔ pg.Carries role' l := by
  simp only [PgCall.run] at h
  obtain rfl := alterRole_ok h
  unfold Carries Postgres.role
  rw [Table.find_modify_of_ne]
  · exact fun _ hname => hname
  · exact hne

end

/-! ### Who works on a project -/

/-- A project's role and stage. -/
def Database.standing (id : String) (db : Database) : Option (Text × Stage) :=
  (Table.find Project.id id db.projects).map (fun p => (p.roleName, p.stage))

/-- The wanted limits with their revision, and the one recorded as applied. -/
structure Revision where
  limits : Limits
  revision : ℕ
  applied : ℕ

def ProjectLimits.asRevision (l : ProjectLimits) : Revision :=
  ⟨l.limits, l.revision, l.appliedRevision⟩

def Database.revision (id : String) (db : Database) : Option Revision :=
  (Table.find ProjectLimits.projectID id db.limits).map ProjectLimits.asRevision

inductive LimitsPart where
  | lock (m : Mutex)
  | project (id : String)

/-- The lock that counts for a project in a stage. -/
def guardOf (id : String) (stage : Stage) : Mutex :=
  if stage = .ready then .limits else .rotation id

def Site.OwnsLimits (i : ℕ) : LimitsPart → Site → Prop
  | .lock m, s => s.locks m = some i
  | .project id, s => ∃ x, s.db.standing id = some x ∧ s.locks (guardOf id x.2) = some i

/-- What nobody but the owner of a project changes. -/
structure Site.SameFooting (id : String) (s s' : Site) : Prop where
  standing : s'.db.standing id = s.db.standing id
  applied : (s'.db.revision id).map Revision.applied = (s.db.revision id).map Revision.applied
  carries : ∀ x, s.db.standing id = some x → ∀ l, s'.pg.Carries x.1 l ↔ s.pg.Carries x.1 l

def Site.SameLimits : LimitsPart → Site → Site → Prop
  | .lock _, _, _ => True
  | .project id, s, s' => s.SameFooting id s'

/-- Projects keep their roles, and a revision is never recorded twice. -/
structure Site.LimitsGrow (s s' : Site) : Prop where
  standing : ∀ id x, s.db.standing id = some x → ∃ x', s'.db.standing id = some x' ∧ x'.1 = x.1
  revision : ∀ id v, s.db.revision id = some v → ∃ v', s'.db.revision id = some v' ∧
    v.revision ≤ v'.revision ∧ (v'.revision = v.revision → v'.limits = v.limits)

/-- What is true of the recorded revisions and the roles at any time. -/
structure Site.LimitsKept (s : Site) : Prop where
  ids : (s.db.projects.map Project.id).Nodup
  roles : ∀ id id' x x', s.db.standing id = some x → s.db.standing id' = some x' →
    x.1 = x'.1 → id = id'
  bounded : ∀ id v, s.db.revision id = some v → v.applied ≤ v.revision
  inForce : ∀ id x v, s.db.standing id = some x → s.db.revision id = some v →
    v.applied = v.revision → s.pg.Carries x.1 v.limits

theorem Site.LimitsGrow.refl (s : Site) : s.LimitsGrow s :=
  ⟨fun _ x h => ⟨x, h, rfl⟩, fun _ v h => ⟨v, h, le_rfl, fun _ => rfl⟩⟩

theorem Site.LimitsGrow.trans {s t u : Site} (h : s.LimitsGrow t) (h' : t.LimitsGrow u) :
    s.LimitsGrow u := by
  refine ⟨fun id x hx => ?_, fun id v hv => ?_⟩
  · obtain ⟨x', hx', hrole⟩ := h.standing id x hx
    obtain ⟨x'', hx'', hrole'⟩ := h'.standing id x' hx'
    exact ⟨x'', hx'', hrole'.trans hrole⟩
  · obtain ⟨v', hv', hle, hsame⟩ := h.revision id v hv
    obtain ⟨v'', hv'', hle', hsame'⟩ := h'.revision id v' hv'
    refine ⟨v'', hv'', hle.trans hle', fun heq => ?_⟩
    -- a revision that has come back was there all the time
    have hmid : v'.revision = v.revision := le_antisymm (heq ▸ hle') hle
    rw [hsame' (heq.trans hmid.symm), hsame hmid]

theorem Site.SameFooting.trans {id : String} {s t u : Site} (h : s.SameFooting id t)
    (h' : t.SameFooting id u) : s.SameFooting id u :=
  ⟨h'.standing.trans h.standing, h'.applied.trans h.applied, fun x hx l =>
    (h'.carries x (h.standing.trans hx) l).trans (h.carries x hx l)⟩

/-- The limits of a project belong to whoever holds the lock that counts for it. -/
def limitsOwnership : Ownership Site LimitsPart where
  inv := Site.LimitsKept
  owns := Site.OwnsLimits
  same := Site.SameLimits
  grows := Site.LimitsGrow
  exclusive {i j a s} _ hi hj := by
    cases a with
    | lock m => exact Option.some.inj (hi.symm.trans hj)
    | project id =>
      obtain ⟨x, hx, hlock⟩ := hi
      obtain ⟨x', hx', hlock'⟩ := hj
      obtain rfl := Option.some.inj (hx.symm.trans hx')
      exact Option.some.inj (hlock.symm.trans hlock')
  same_refl a s := by
    cases a with
    | lock m => trivial
    | project id => exact ⟨rfl, rfl, fun _ _ _ => Iff.rfl⟩
  same_trans {a s t u} h h' := by
    cases a with
    | lock m => trivial
    | project id => exact Site.SameFooting.trans h h'
  grows_refl := Site.LimitsGrow.refl
  grows_trans := Site.LimitsGrow.trans

/-! ### Calls that anybody may make -/

/-- No stage, no applied revision, no role and no lock has changed; a new
    revision may have been recorded. -/
structure Site.LimitsMild (s s' : Site) : Prop where
  locks : s'.locks = s.locks
  ids : s'.db.projects.map Project.id = s.db.projects.map Project.id
  standing : ∀ id, s'.db.standing id = s.db.standing id
  revision : ∀ id, s'.db.revision id = s.db.revision id ∨ ∃ v l, s.db.revision id = some v ∧
    s'.db.revision id = some ⟨l, v.revision + 1, v.applied⟩
  carries : ∀ role l, s'.pg.Carries role l ↔ s.pg.Carries role l

theorem Site.LimitsMild.refl (s : Site) : s.LimitsMild s :=
  ⟨rfl, rfl, fun _ => rfl, fun _ => Or.inl rfl, fun _ _ => Iff.rfl⟩

theorem Site.LimitsMild.kept {s s' : Site} (h : s.LimitsMild s') (hs : s.LimitsKept) :
    s'.LimitsKept := by
  refine ⟨h.ids ▸ hs.ids, fun id id' x x' hx hx' => ?_, fun id v hv => ?_, fun id x v hx hv => ?_⟩
  · rw [h.standing] at hx hx'
    exact hs.roles id id' x x' hx hx'
  · rcases h.revision id with heq | ⟨v', l, hv', heq⟩
    · exact hs.bounded id v (heq ▸ hv)
    · obtain rfl := Option.some.inj (heq.symm.trans hv)
      exact Nat.le_succ_of_le (hs.bounded id v' hv')
  · intro happlied
    rw [h.standing] at hx
    rw [h.carries]
    rcases h.revision id with heq | ⟨v', l, hv', heq⟩
    · exact hs.inForce id x v hx (heq ▸ hv) happlied
    · -- the new revision is ahead of every applied one
      obtain rfl := Option.some.inj (heq.symm.trans hv)
      have := hs.bounded id v' hv'
      simp only at happlied
      omega

theorem Site.LimitsMild.free {s s' : Site} (h : s.LimitsMild s') :
    limitsOwnership.Free s s' := by
  refine ⟨⟨fun id x hx => ⟨x, (h.standing id).trans hx, rfl⟩, fun id v hv => ?_⟩, fun a => ?_,
    fun j a ha => ?_⟩
  · rcases h.revision id with heq | ⟨v', l, hv', heq⟩
    · exact ⟨v, heq.trans hv, le_rfl, fun _ => rfl⟩
    · obtain rfl := Option.some.inj (hv'.symm.trans hv)
      exact ⟨_, heq, Nat.le_succ _, fun hrev => absurd hrev (Nat.succ_ne_self _)⟩
  · cases a with
    | lock m => trivial
    | project id =>
      refine ⟨h.standing id, ?_, fun x _ l => h.carries x.1 l⟩
      rcases h.revision id with heq | ⟨v', l, hv', heq⟩
      · rw [heq]
      · rw [heq, hv']
        rfl
  · cases a with
    | lock m =>
      show s'.locks m = some j
      rw [h.locks]
      exact ha
    | project id =>
      obtain ⟨x, hx, hlock⟩ := ha
      exact ⟨x, (h.standing id).trans hx, h.locks ▸ hlock⟩

/-- Calls of that kind. -/
def Call.LimitsMild ⦃β : Type⦄ : Call β → Prop
  | .store (.failProject _ _) => True
  | .store (.limitsFailed _ _) => True
  | .store (.updateLimits _ _ _ _) => True
  | .store q => ¬ q.WritesProjects ∧ ¬ q.WritesLimits
  | .pg q => q.Mild
  | .auth _ => False
  | .lock _ => False
  | .tryLock _ => False
  | .unlock _ => False
  | _ => True

/-- Calls that set no other setting of a role than the limits. -/
def Call.LimitsOnly ⦃β : Type⦄ : Call β → Prop
  | .pg (.applyLimits _ settings _) => settings.map Prod.fst = limitKeys
  | .pg (.resetDatabaseLimits _ _ keys) => ∀ key ∈ keys, key ∈ limitKeys
  | .pg (.setReadOnly _ _) => False
  | .pg (.dropRole _) => False
  | _ => True

/-- The listing a pass over the limits begins with. -/
def Call.ListsLimits ⦃β : Type⦄ : Call β → Prop
  | .store .readyProjectLimits => True
  | _ => False

/-- Calls of programs that are no passes and set no other setting. -/
def Call.LimitsTidy ⦃β : Type⦄ (c : Call β) : Prop := c.LimitsOnly ∧ ¬ c.ListsLimits

section
variable {fails : Faults} {i : ℕ} {s s' : Site}

/-- A statement that took effect, or one that did not. -/
theorem Site.Replies.store_mild {β : Type} {q : StoreCall β} {r : Except Err β}
    (h : Site.Replies fails i (.store q) s r s')
    (hq : ∀ a db, q.run s.db = .ok (a, db) → s.LimitsMild { s with db := db }) :
    s.LimitsMild s' := by
  rcases h with ⟨a, db, hrun, -, rfl⟩ | ⟨e, -, -, rfl⟩
  · exact hq a db hrun
  · exact .refl _

theorem StoreCall.limitsMild {β : Type} {q : StoreCall β} (hp : ¬ q.WritesProjects)
    (hl : ¬ q.WritesLimits) {a : β} {db : Database} (h : q.run s.db = .ok (a, db)) :
    s.LimitsMild { s with db := db } := by
  have hframe := run_frame h
  have hprojects := hframe.projects.resolve_left hp
  have hlimits := hframe.limits.resolve_left hl
  refine ⟨rfl, ?_, fun id => ?_, fun id => Or.inl ?_, fun _ _ => Iff.rfl⟩
  · exact congrArg (List.map Project.id) hprojects
  · show db.standing id = _
    unfold Database.standing
    rw [hprojects]
  · show db.revision id = _
    unfold Database.revision
    rw [hlimits]

/-- The statements that write the tables and show in none of the above. -/
theorem Database.failProject_limitsMild (id stageError : String) :
    s.LimitsMild { s with db := s.db.failProject id stageError } := by
  refine ⟨rfl, ?_, fun id' => ?_, fun _ => Or.inl rfl, fun _ _ => Iff.rfl⟩
  · refine Table.map_key_modify (fun p _ hp => ?_)
    split
    · exact hp
    · exact hp
  · refine Table.find_modify_map (fun p hp => ?_) (fun p => ?_)
    · split
      · exact hp
      · exact hp
    · split
      · rfl
      · rfl

theorem Database.limitsFailed_limitsMild (id reason : String) :
    s.LimitsMild { s with db := s.db.limitsFailed id reason } :=
  ⟨rfl, rfl, fun _ => rfl,
    fun _ => Or.inl (Table.find_modify_map (fun _ hl => hl) (fun _ => rfl)), fun _ _ => Iff.rfl⟩

theorem Database.updateLimits_limitsMild (id : String) (l : Limits) (seen : ℕ) (now : Instant) :
    s.LimitsMild { s with db := (s.db.updateLimits id l seen now).2 } := by
  refine ⟨rfl, rfl, fun _ => rfl, fun id' => ?_, fun _ _ => Iff.rfl⟩
  have hkey : ∀ o : ProjectLimits, o.projectID = id → (if o.revision = seen
      then { o with limits := l, revision := o.revision + 1, updatedAt := unix now }
      else o).projectID = id := by
    intro o ho
    split
    · exact ho
    · exact ho
  by_cases hid : id' = id
  · subst hid
    simp only [Database.revision, Database.updateLimits]
    rw [Table.find_modify hkey]
    cases hfind : Table.find ProjectLimits.projectID id' s.db.limits with
    | none => exact Or.inl rfl
    | some o =>
      by_cases hseen : o.revision = seen
      · exact Or.inr ⟨o.asRevision, l, rfl, by simp [hseen, ProjectLimits.asRevision]⟩
      · exact Or.inl (by simp [hseen])
  · left
    simp only [Database.revision, Database.updateLimits]
    rw [Table.find_modify_of_ne hkey hid]

theorem Call.LimitsMild.replies {β : Type} {c : Call β} {r : β} (hc : c.LimitsMild)
    (h : Site.Replies fails i c s r s') : s.LimitsMild s' := by
  cases c with
  | store q =>
    refine h.store_mild (fun a db hrun => ?_)
    cases q with
    | failProject id stageError =>
      obtain rfl := StoreCall.write_eq_ok.mp hrun
      exact Database.failProject_limitsMild id stageError
    | limitsFailed id reason =>
      obtain rfl := StoreCall.write_eq_ok.mp hrun
      exact Database.limitsFailed_limitsMild id reason
    | updateLimits id l seen now =>
      cases hrun
      exact Database.updateLimits_limitsMild id l seen now
    | _ => exact StoreCall.limitsMild hc.1 hc.2 hrun
  | pg q =>
    rcases h with ⟨a, pg, hrun, -, rfl⟩ | ⟨e, -, -, rfl⟩
    · exact ⟨rfl, rfl, fun _ => rfl, fun _ => Or.inl rfl,
        fun _ _ => PgCall.carries_run hc hrun⟩
    · exact .refl _
  | auth q => cases hc
  | lock m => cases hc
  | tryLock m => cases hc
  | unlock m => cases hc
  | file q =>
    rcases h with ⟨-, rfl⟩ | ⟨-, -, rfl⟩
    · cases q <;> exact ⟨rfl, rfl, fun _ => rfl, fun _ => Or.inl rfl, fun _ _ => Iff.rfl⟩
    · exact .refl _
  | sealSecret projectID password =>
    obtain ⟨-, rfl⟩ := h
    exact ⟨rfl, rfl, fun _ => rfl, fun _ => Or.inl rfl, fun _ _ => Iff.rfl⟩
  | openSecret projectID sealedValue | now =>
    obtain ⟨-, rfl⟩ := h
    exact .refl _
  | _ =>
    obtain rfl := h
    exact .refl _

end

end Pgfy
