import Pgfy.Provision.LimitRuns

/-! # What passes over the limits do to roles

    A pass changes a role only after it has seen a difference between what the
    role has and what is wanted for it, and nothing but the limits.
-/

namespace Pgfy

open Calendar Program

/-! ### Roles that are left alone -/

/-- The call leaves the role alone. -/
def Call.Spares (role : Text) ⦃β : Type⦄ : Call β → Prop
  | .pg (.applyLimits role' _ _) => role' ≠ role
  | .pg (.resetDatabaseLimits role' _ _) => role' ≠ role
  | .pg .roleStates => True
  | .pg _ => False
  | _ => True

section
variable {fails : Faults} {i : ℕ} {s s' : Site} {β : Type} {c : Call β} {r : β} {role : Text}

theorem Postgres.role_alterRole_of_ne {pg pg' : Postgres} {role' : Text} {f : PgRole → PgRole}
    (hname : ∀ r, (f r).name = r.name) (hne : role' ≠ role)
    (h : pg.alterRole role' f = .ok ((), pg')) : pg'.role role = pg.role role := by
  obtain rfl := alterRole_ok h
  exact Table.find_modify_of_ne (fun r hr => (hname r).trans hr) hne.symm

theorem Call.Spares.replies (hc : c.Spares role) (h : Site.Replies fails i c s r s') :
    s'.pg.role role = s.pg.role role := by
  cases c with
  | pg q =>
    rcases h with ⟨a, pg, hrun, -, rfl⟩ | ⟨e, -, -, rfl⟩
    · cases q with
      | applyLimits role' settings connectionLimit =>
        refine Postgres.role_alterRole_of_ne ?_ hc hrun
        exact fun _ => rfl
      | resetDatabaseLimits role' database keys =>
        exact Postgres.role_alterRole_of_ne (PgRole.resetIn_name database keys) hc hrun
      | roleStates =>
        cases hrun
        rfl
      | _ => cases hc
    · rfl
  | store q | auth q => rcases h with ⟨a, db, -, -, rfl⟩ | ⟨e, -, -, rfl⟩ <;> rfl
  | file q =>
    rcases h with ⟨-, rfl⟩ | ⟨-, -, rfl⟩
    · cases q <;> rfl
    · rfl
  | tryLock m => rcases h with ⟨-, -, rfl⟩ | ⟨-, -, rfl⟩ <;> rfl
  | unlock m =>
    obtain rfl : s' = s.withLock m none := h
    rfl
  | sealSecret projectID password | openSecret projectID sealedValue | now | lock m =>
    obtain ⟨-, rfl⟩ := h
    rfl
  | _ =>
    obtain rfl := h
    rfl

end

/-! ### Differences -/

/-- A pass has been told of a ready project with this role, and of a state of
    the role that is not as wanted. -/
def DifferenceSeen (role : Text) (seen : List (Exchange Call)) : Prop :=
  ∃ listing states x kv, (⟨.store .readyProjectLimits, .ok listing⟩ : Exchange Call) ∈ seen ∧
    (⟨.pg .roleStates, .ok states⟩ : Exchange Call) ∈ seen ∧
    x ∈ listing ∧ x.1.roleName = role ∧ Table.find Prod.fst role states = some kv ∧
    (overrides x.2.limits kv.2 ≠ [] ∨ drifted x.2.limits kv.2 = true)

/-- The thread is a pass over the limits that has got as far as its listing. -/
def Passing (seen : List (Exchange Call)) : Prop := ∃ e ∈ seen, e.call.ListsLimits

/-- Roles without a difference are left alone. -/
def Purposeful (seen : List (Exchange Call)) : Prop :=
  ∀ role, ¬ DifferenceSeen role seen → ∀ e ∈ seen, e.call.Spares role

theorem DifferenceSeen.cons {role : Text} {seen : List (Exchange Call)} (e : Exchange Call)
    (h : DifferenceSeen role seen) : DifferenceSeen role (e :: seen) := by
  obtain ⟨listing, states, x, kv, hlisting, hstates, hrest⟩ := h
  exact ⟨listing, states, x, kv, List.mem_cons_of_mem _ hlisting, List.mem_cons_of_mem _ hstates,
    hrest⟩

theorem Purposeful.cons {seen : List (Exchange Call)} (h : Purposeful seen) {β : Type}
    {c : Call β} (r : β) (hc : ∀ role, c.Spares role ∨ DifferenceSeen role seen) :
    Purposeful (⟨c, r⟩ :: seen) := by
  intro role hnone e he
  have hbefore : ¬ DifferenceSeen role seen := fun hd => hnone (hd.cons _)
  rcases List.mem_cons.mp he with rfl | he
  · exact (hc role).resolve_right hbefore
  · exact h role hbefore e he

/-- Programs that leave every role alone. -/
theorem keeps_purposeful {α : Type} {p : Run α} {W : List (Exchange Call) → Prop}
    (hW : ∀ e seen, W seen → W (e :: seen)) (hp : p.Calls (fun _ c => ∀ role, c.Spares role))
    {seen : List (Exchange Call)} (hseen : W seen) :
    Keeps Purposeful p (fun _ seen' => W seen') seen :=
  Keeps.of_calls_after hW (fun _ _ hc _ r _ h => h.cons r (fun role => Or.inl (hc role))) hp hseen

/-- What a pass has been told before it looks at the projects. -/
def Told (listing : List (Project × ProjectLimits)) (states : List (Text × RoleState))
    (seen : List (Exchange Call)) : Prop :=
  (⟨.store .readyProjectLimits, .ok listing⟩ : Exchange Call) ∈ seen ∧
    (⟨.pg .roleStates, .ok states⟩ : Exchange Call) ∈ seen

theorem Told.cons {listing : List (Project × ProjectLimits)} {states : List (Text × RoleState)}
    (e : Exchange Call) (seen : List (Exchange Call)) (h : Told listing states seen) :
    Told listing states (e :: seen) :=
  ⟨List.mem_cons_of_mem _ h.1, List.mem_cons_of_mem _ h.2⟩

theorem Told.now {listing : List (Project × ProjectLimits)} {states : List (Text × RoleState)}
    (seen : List (Exchange Call)) : Told listing states
      (⟨.pg .roleStates, .ok states⟩ :: ⟨.store .readyProjectLimits, .ok listing⟩ :: seen) :=
  ⟨List.mem_cons_of_mem _ List.mem_cons_self, List.mem_cons_self⟩

section
variable {listing : List (Project × ProjectLimits)} {states : List (Text × RoleState)}
  {x : Project × ProjectLimits} {seen : List (Exchange Call)}

/-- Every call of a program over one project leaves the other roles alone. -/
theorem syncProjectLimits_spares : Prog.Calls
    (fun _ c => ∀ role, c.Spares role ∨ x.1.roleName = role) (syncProjectLimits states x) := by
  unfold syncProjectLimits
  split
  · trivial
  · refine Prog.Calls.bind ?_ (fun _ => ?_)
    · unfold removeOverrides
      split
      · refine calls_ignore (calls_ensure (fun _ => .forEach (fun key =>
          calls_ensure (fun _ => .ask (fun role => ?_)))))
        exact (em (x.1.roleName = role)).symm
      · trivial
    · unfold repairLimits
      split
      · refine Prog.Calls.bind (Prog.Calls.bindAction (calls_ensure (fun _ => .ask fun role => ?_))
          (fun _ => .ask (fun _ => Or.inl trivial))) (fun r => ?_)
        · exact (em (x.1.roleName = role)).symm
        · cases r with
          | ok u => trivial
          | error e => exact calls_ignore (.ask (fun _ => Or.inl trivial))
      · split
        · exact calls_ignore (.ask (fun _ => Or.inl trivial))
        · trivial

/-- Without a difference it leaves its own alone as well. -/
theorem syncProjectLimits_spares_all (h : ∀ kv, Table.find Prod.fst x.1.roleName states = some kv →
    overrides x.2.limits kv.2 = [] ∧ drifted x.2.limits kv.2 = false) :
    Prog.Calls (fun _ c => ∀ role, c.Spares role) (syncProjectLimits states x) := by
  unfold syncProjectLimits
  split
  · trivial
  · next key state hfind =>
    obtain ⟨hoverrides, hdrift⟩ := h _ hfind
    refine Prog.Calls.bind ?_ (fun _ => ?_)
    · rw [removeOverrides, if_neg (not_not.mpr hoverrides)]
      trivial
    · rw [repairLimits, if_neg (by rw [hdrift]; simp)]
      split
      · exact calls_ignore (.ask (fun _ => trivial))
      · trivial

theorem syncProjectLimits_keeps (hx : x ∈ listing) (hseen : Told listing states seen) :
    Keeps Purposeful (syncProjectLimits states x) (fun _ seen' => Told listing states seen')
      seen := by
  by_cases hnone : ∀ kv, Table.find Prod.fst x.1.roleName states = some kv →
      overrides x.2.limits kv.2 = [] ∧ drifted x.2.limits kv.2 = false
  · exact keeps_purposeful Told.cons (syncProjectLimits_spares_all hnone) hseen
  · simp only [not_forall] at hnone
    obtain ⟨kv, hkv, hdiff⟩ := hnone
    refine Keeps.of_calls_after Told.cons (fun β c hc seen r htold h => h.cons r (fun role => ?_))
      syncProjectLimits_spares hseen
    refine (hc role).imp_right (fun hrole => ?_)
    subst hrole
    refine ⟨listing, states, x, kv, htold.1, htold.2, hx, rfl, hkv, ?_⟩
    by_contra hboth
    rw [not_or, not_not, Bool.not_eq_true] at hboth
    exact hdiff hboth

theorem syncEach_keeps {rest : List (Project × ProjectLimits)} (hrest : ∀ x ∈ rest, x ∈ listing)
    (hseen : Told listing states seen) :
    Keeps Purposeful (Run.forEach (syncProjectLimits states) rest) (fun _ _ => True) seen := by
  induction rest generalizing seen with
  | nil => exact Keeps.ret (fun _ => trivial)
  | cons x rest ih =>
    obtain ⟨hx, hrest⟩ := List.forall_mem_cons.mp hrest
    exact Safe.bind (Safe.mono (fun _ seen' htold => ih hrest htold)
      (syncProjectLimits_keeps hx hseen))

theorem syncLimits_keeps : Keeps Purposeful syncLimits (fun _ _ => True) seen := by
  have hquiet : ∀ {β : Type} {c : Call β} (seen : List (Exchange Call)) (r : β),
      (∀ role, c.Spares role) → Purposeful seen → Purposeful (⟨c, r⟩ :: seen) :=
    fun _ r hc h => h.cons r (fun role => Or.inl (hc role))
  refine Keeps.ask (fun h _ => ⟨hquiet _ _ (fun _ => trivial) h, ?_⟩)
  refine Safe.bind (Safe.mono (Q := fun _ _ => True) (fun _ seen' _ => ?_) ?_)
  · exact Keeps.of_calls (K := fun _ c => ∀ role, c.Spares role)
      (fun _ _ hc seen r h => hquiet seen r hc h) (.ask (fun _ => trivial))
  refine Keeps.ask (fun h r => ⟨hquiet _ _ (fun _ => trivial) h, ?_⟩)
  cases r with
  | error e => exact Keeps.ret (fun _ => trivial)
  | ok listing =>
    cases listing with
    | nil => exact Keeps.ret (fun _ => trivial)
    | cons x rest =>
      refine Keeps.ask (fun h r => ⟨hquiet _ _ (fun _ => trivial) h, ?_⟩)
      cases r with
      | error e => exact Keeps.ret (fun _ => trivial)
      | ok states =>
        exact syncEach_keeps (fun _ hy => hy) (Told.now _)

end

/-! ### Other settings -/

section
variable {fails : Faults} {i : ℕ} {s s' : Site} {β : Type} {c : Call β} {r : β} {role : Text}

/-- The role has the same other settings, for all databases and for its own. -/
def PgRole.SameOthers (r r' : PgRole) : Prop :=
  ∀ key ∉ limitKeys,
    Table.find Prod.fst key r'.state.settings = Table.find Prod.fst key r.state.settings ∧
    Table.find Prod.fst key r'.state.databaseSettings =
      Table.find Prod.fst key r.state.databaseSettings

/-- Every role is still there, with the same other settings. -/
def Postgres.KeepsOthers (pg pg' : Postgres) : Prop :=
  ∀ role r, pg.role role = some r → ∃ r', pg'.role role = some r' ∧ r.SameOthers r'

theorem Postgres.KeepsOthers.refl (pg : Postgres) : pg.KeepsOthers pg :=
  fun _ r hr => ⟨r, hr, fun _ _ => ⟨rfl, rfl⟩⟩

theorem Postgres.keepsOthers_alterRole {pg pg' : Postgres} {f : PgRole → PgRole}
    (hname : ∀ r, (f r).name = r.name) (hf : ∀ r : PgRole, r.SameOthers (f r))
    (h : pg.alterRole role f = .ok ((), pg')) : pg.KeepsOthers pg' := by
  intro role' r hr
  by_cases heq : role' = role
  · subst heq
    obtain rfl := alterRole_ok h
    refine ⟨f r, ?_, hf r⟩
    unfold Postgres.role at hr ⊢
    rw [show ({ pg with roles := Table.modify PgRole.name role' f pg.roles } : Postgres).roles =
      Table.modify PgRole.name role' f pg.roles from rfl, Table.find_modify, hr]
    · rfl
    · exact fun r hr => (hname r).trans hr
  · exact ⟨r, (role_alterRole_of_ne hname (Ne.symm heq) h).trans hr, fun _ _ => ⟨rfl, rfl⟩⟩

theorem PgCall.keepsOthers {q : PgCall β} {a : β} {pg pg' : Postgres}
    (hq : Call.LimitsOnly (.pg q)) (h : q.run pg = .ok (a, pg')) : pg.KeepsOthers pg' := by
  cases q with
  | setReadOnly => cases hq
  | dropRole => cases hq
  | setPassword role password | disableLogin role =>
    refine Postgres.keepsOthers_alterRole ?_ ?_ h
    · exact fun _ => rfl
    · exact fun _ _ _ => ⟨rfl, rfl⟩
  | applyLimits role settings connectionLimit =>
    refine Postgres.keepsOthers_alterRole ?_ ?_ h
    · exact fun _ => rfl
    · exact fun r key hkey => ⟨find_setAll_of_notMem (hq.symm ▸ hkey), rfl⟩
  | resetDatabaseLimits role database keys =>
    refine Postgres.keepsOthers_alterRole (PgRole.resetIn_name database keys) ?_ h
    intro r key hkey
    have hnot : key ∉ keys := fun hmem => hkey (hq key hmem)
    unfold PgRole.resetIn
    split
    · refine ⟨rfl, ?_⟩
      simp only [Table.find, List.find?_filter]
      congr 1
      funext kv
      by_cases hkv : kv.1 = key
      · simp [hkv, hnot]
      · simp [hkv]
    · exact ⟨rfl, rfl⟩
  | createRole role password connectionLimit =>
    simp only [run] at h
    split at h
    · cases h
    next hnone =>
    cases h
    intro role' r hr
    refine ⟨r, ?_, fun _ _ => ⟨rfl, rfl⟩⟩
    unfold Postgres.role Table.find at hr ⊢
    rw [List.find?_append, hr]
    rfl
  | createDatabase name owner | dropDatabase name =>
    simp only [run] at h
    split at h
    · cases h
    · cases h
      exact .refl pg
  | revokePublic name =>
    simp only [run] at h
    split at h
    · cases h
      exact .refl _
    · cases h
  | _ =>
    cases h
    exact .refl pg

theorem Call.LimitsOnly.replies (hc : c.LimitsOnly) (h : Site.Replies fails i c s r s') :
    s.pg.KeepsOthers s'.pg := by
  cases c with
  | pg q =>
    rcases h with ⟨a, pg, hrun, -, rfl⟩ | ⟨e, -, -, rfl⟩
    · exact PgCall.keepsOthers hc hrun
    · exact .refl _
  | _ =>
    intro role r hr
    refine ⟨r, (Call.Spares.replies ?_ h).trans hr, fun _ _ => ⟨rfl, rfl⟩⟩
    trivial

end

/-! ### Every run -/

theorem applyLimits_tidy (id : String) (role : Text) (l : ProjectLimits) :
    Prog.Calls Call.LimitsTidy (applyLimits id role l) := by
  refine Prog.Calls.bindAction (calls_ensure (fun _ => .ask ⟨?_, not_false⟩))
    (fun _ => .ask ⟨trivial, not_false⟩)
  exact limitSettings_keys l.limits

theorem retryFrom_calls {K : ∀ ⦃β : Type⦄, Call β → Prop} (hK : K .expired) {x : Go Unit}
    (hx : Prog.Calls K x) (n : ℕ) (last : Option Err) : Prog.Calls K (retryFrom x n last) := by
  induction n generalizing last with
  | zero =>
    cases last with
    | none => trivial
    | some e => trivial
  | succ n ih =>
    refine Prog.Calls.bindAction (calls_attempt hx) (fun r => ?_)
    cases r with
    | ok u => trivial
    | error e =>
      dsimp only
      split
      · trivial
      · refine Prog.Calls.bindAction (Prog.Calls.lift (.ask hK)) (fun expired => ?_)
        cases expired with
        | true => trivial
        | false => exact ih (some e)

theorem runStages_tidy (project : Project) {stages : List (Stage × Go Unit)}
    (h : ∀ x ∈ stages, Prog.Calls Call.LimitsTidy x.2) (skipping : Bool) :
    Prog.Calls Call.LimitsTidy (runStages project skipping stages) := by
  induction stages generalizing skipping with
  | nil => trivial
  | cons x rest ih =>
    obtain ⟨hx, hrest⟩ := List.forall_mem_cons.mp h
    cases skipping with
    | true => exact ih hrest _
    | false =>
      refine Prog.Calls.bindAction ?_ (fun _ => ?_)
      · refine Prog.Calls.bindAction
          (calls_attempt (retryFrom_calls ⟨trivial, not_false⟩ hx 3 none)) (fun r => ?_)
        cases r with
        | ok u => trivial
        | error e => trivial
      · refine Prog.Calls.bindAction (Prog.Calls.lift (.ask ⟨trivial, not_false⟩)) (fun now => ?_)
        exact Prog.Calls.bindAction (.ask ⟨trivial, not_false⟩) (fun _ => ih hrest false)

theorem makeReady_tidy (project : Project) (limits : ProjectLimits) :
    Prog.Calls Call.LimitsTidy (makeReady project limits) := by
  refine (applyLimits_tidy _ _ _).bindAction (fun _ => ?_)
  refine Prog.Calls.bindAction (.ask ⟨trivial, not_false⟩) (fun st => ?_)
  dsimp only
  split
  · refine Prog.Calls.bindAction (Prog.Calls.lift (.ask ⟨trivial, not_false⟩)) (fun now => ?_)
    refine Prog.Calls.bindAction (calls_attempt (.ask ⟨trivial, not_false⟩)) (fun r => ?_)
    cases r with
    | ok n => trivial
    | error e =>
      dsimp only
      split
      · trivial
      · trivial
  · trivial

theorem provisionLocked_tidy (id : String) : Prog.Calls Call.LimitsTidy (provisionLocked id) := by
  refine Prog.Calls.bindAction (.ask ⟨trivial, not_false⟩) (fun project => ?_)
  split
  · trivial
  refine Prog.Calls.bindAction (.ask ⟨trivial, not_false⟩) (fun sealedValue => ?_)
  refine Prog.Calls.bindAction (calls_attempt (.ask ⟨trivial, not_false⟩)) (fun opened => ?_)
  cases opened with
  | error e => trivial
  | ok password =>
    refine Prog.Calls.bindAction (.ask ⟨trivial, not_false⟩) (fun limits => ?_)
    refine runStages_tidy project ?_ _
    simp only [List.forall_mem_cons]
    exact ⟨(ensureRole_calls _ _ _).mono (fun _ _ hc => hc.2),
      (ensureDatabase_calls _ _).mono (fun _ _ hc => hc.2), makeReady_tidy project limits, by simp⟩

theorem provisionListed_tidy (listed : Project) :
    (provisionListed listed).Calls Call.LimitsTidy := by
  refine Prog.Calls.bind ?_ (fun r => ?_)
  · refine Prog.Calls.bindAction (Prog.Calls.lift (.ask ⟨trivial, not_false⟩)) (fun _ => ?_)
    refine Prog.Calls.bindAction (calls_attempt (provisionLocked_tidy _)) (fun r => ?_)
    exact Prog.Calls.bindAction (Prog.Calls.lift (.ask ⟨trivial, not_false⟩)) (fun _ => calls_of r)
  · cases r with
    | ok u => trivial
    | error e =>
      exact Prog.Calls.bind (calls_ignore (.ask ⟨trivial, not_false⟩)) (fun _ => trivial)

theorem syncProjectLimits_only (states : List (Text × RoleState)) (x : Project × ProjectLimits) :
    (syncProjectLimits states x).Calls Call.LimitsOnly := by
  unfold syncProjectLimits
  split
  · trivial
  · refine Prog.Calls.bind ?_ (fun _ => ?_)
    · unfold removeOverrides
      split
      · exact (calls_ignore (resetDatabaseLimits_calls _ _ _)).mono (fun _ _ hc => hc.2.1)
      · trivial
    · unfold repairLimits
      split
      · refine Prog.Calls.bind ((applyLimits_tidy _ _ _).mono (fun _ _ hc => hc.1)) (fun r => ?_)
        cases r with
        | ok u => trivial
        | error e => exact calls_ignore (.ask trivial)
      · split
        · exact calls_ignore (.ask trivial)
        · trivial

theorem syncLimits_only : syncLimits.Calls Call.LimitsOnly := by
  refine Prog.Calls.bind (.ask trivial) (fun _ => Prog.Calls.bind ?_ (fun _ => .ask trivial))
  refine Prog.Calls.bind (.ask trivial) (fun r => ?_)
  cases r with
  | error e => trivial
  | ok listing =>
    cases listing with
    | nil => trivial
    | cons x rest =>
      refine Prog.Calls.bind (.ask trivial) (fun r => ?_)
      cases r with
      | error e => trivial
      | ok states =>
        generalize x :: rest = listing
        induction listing with
        | nil => trivial
        | cons y rest ih => exact Prog.Calls.bind (syncProjectLimits_only states y) (fun _ => ih)

theorem LimitsWork.only {p : Run Unit} (h : LimitsWork p) : p.Calls Call.LimitsOnly := by
  cases h with
  | set id l seen now =>
    exact (calls_ignore (setProjectLimits_calls id l seen now)).mono (fun _ _ hc => hc.2.1)
  | sync => exact syncLimits_only
  | provision listed =>
    exact Prog.Calls.bind ((provisionListed_tidy listed).mono (fun _ _ hc => hc.1))
      (fun _ => trivial)

/-- A thread that is a pass leaves roles without a difference alone. -/
theorem LimitsWork.keeps {p : Run Unit} (h : LimitsWork p) :
    Keeps (fun seen => Passing seen → Purposeful seen) p (fun _ _ => True) [] := by
  have hnever : ∀ {p : Run Unit}, p.Calls Call.LimitsTidy →
      Keeps (fun seen => Passing seen → Purposeful seen) p (fun _ _ => True) [] := by
    intro p hp
    have hnone : ¬ Passing [] := by simp [Passing]
    refine Keeps.widen (J := fun seen => ¬ Passing seen) (fun _ hn h => absurd h hn) hnone ?_
    refine Keeps.of_calls (fun β c hc seen r hn hpass => ?_) hp
    obtain ⟨e, he, hlists⟩ := hpass
    rcases List.mem_cons.mp he with rfl | he
    · exact hc.2 hlists
    · exact hn ⟨e, he, hlists⟩
  cases h with
  | set id l seen now =>
    exact hnever ((calls_ignore (setProjectLimits_calls id l seen now)).mono (fun _ _ hc => hc.2))
  | sync =>
    exact Keeps.widen (fun _ h _ => h) (fun _ _ e he => absurd he List.not_mem_nil)
      syncLimits_keeps
  | provision listed => exact hnever ((provisionListed_tidy listed).bind (fun _ => trivial))

/-- Sites on which no limits have been applied yet: a fresh one, or one whose
    projects are older than the limits. -/
structure Site.LimitsUnapplied (s : Site) : Prop where
  ids : (s.db.projects.map Project.id).Nodup
  roles : ∀ id id' x x', s.db.standing id = some x → s.db.standing id' = some x' →
    x.1 = x'.1 → id = id'
  unapplied : ∀ id v, s.db.revision id = some v → v.applied < v.revision

theorem Site.LimitsUnapplied.kept {s : Site} (h : s.LimitsUnapplied) : s.LimitsKept :=
  ⟨h.ids, h.roles, fun id v hv => (h.unapplied id v hv).le,
    fun id _ v _ hv heq => absurd heq (h.unapplied id v hv).ne⟩

/-- In every run of requests for limits, passes and provisionings: an applied
    revision is never ahead of the wanted one; a ready project whose wanted
    revision is recorded as applied has a role that carries it; a pass changes
    no role it has seen no difference for; and no call changes a setting of a
    role that is not one of the limits. -/
theorem limits_in_force {fails : Faults} {s : Site} (hs : s.LimitsUnapplied)
    {c : Pool History Call} (h : Reaches (recorded (limitsSystem fails)) ⟨⟨s, []⟩, []⟩ c) :
    (∀ id l, c.state.site.db.projectLimits id = .ok l → l.appliedRevision ≤ l.revision) ∧
    (∀ id p l, c.state.site.db.project id = .ok p → p.stage = .ready →
      c.state.site.db.projectLimits id = .ok l → l.appliedRevision = l.revision →
      c.state.site.pg.Carries p.roleName l.limits) ∧
    (∀ i role, Passing (c.state.journal i) → ¬ DifferenceSeen role (c.state.journal i) →
      ∀ n ∈ c.state.log, n.thread = some i → n.after.pg.role role = n.before.pg.role role) ∧
    (∀ n ∈ c.state.log, n.before.pg.KeepsOthers n.after.pg) := by
  have hkept : c.state.site.LimitsKept :=
    ((limitsOwnership.discipline.covers_empty hs.kept).reaches (limits_kept fails)
      (recorded_reaches h)).inv
  have hrow : ∀ id l, c.state.site.db.projectLimits id = .ok l →
      c.state.site.db.revision id = some l.asRevision := by
    intro id l hl
    unfold Database.projectLimits at hl
    split at hl
    · next l' hfind =>
      cases hl
      rw [Database.revision, hfind]
      rfl
    · cases hl
  refine ⟨fun id l hl => hkept.bounded id _ (hrow id l hl), ?_, ?_, ?_⟩
  · intro id p l hp _ hl happlied
    refine hkept.inForce id (p.roleName, p.stage) l.asRevision ?_ (hrow id l hl) happlied
    unfold Database.project at hp
    split at hp
    · next p' hfind =>
      cases hp
      rw [Database.standing, hfind]
      rfl
    · cases hp
  · intro i role hpass hnone n hn hthread
    have hpurpose := recorded_journals (M := limitsSystem fails)
      (fun hpass => absurd hpass (by simp [Passing]))
      (fun hp => LimitsWork.keeps hp) (fun hr p hp => LimitsWork.keeps (hr.2.2 p hp)) h i hpass
    have hanswer : ∃ j, Site.Replies fails j n.call n.before n.answer n.after :=
      recorded_notes (K := fun _ _ => True)
        (P := fun n => ∃ j, Site.Replies fails j n.call n.before n.answer n.after)
        (fun _ => .any (fun _ _ => trivial)) (fun _ _ _ => .any (fun _ _ => trivial))
        (fun _ ha => ⟨_, ha⟩) h n hn
    obtain ⟨j, ha⟩ := hanswer
    refine Call.Spares.replies (hpurpose role hnone n.exchange ?_) ha
    exact List.mem_map_of_mem (List.mem_filter.mpr ⟨hn, by simpa using hthread⟩)
  · exact recorded_notes (M := limitsSystem fails) (fun hp => LimitsWork.only hp)
      (fun hr p hp => LimitsWork.only (hr.2.2 p hp)) (fun hc ha => hc.replies ha) h

/-! ### Two passes and a request -/

def limitsName : Text := "app_0123456789ab".toList

def otherName : Text := "app_ba9876543210".toList

/-- A ready project. -/
def limitsProject : Project :=
  ⟨"p", "shop", limitsName, limitsName, "k", .ready, false, "", 1, 1, 0, 0⟩

def limitsRole : PgRole := ⟨limitsName, "pw", ⟨true, false, false, false⟩, true, ⟨[], [], 25⟩⟩

/-- Two projects with the limits they started with, and roles that have none. -/
def limitsSite : Site where
  config := { id := "i", mode := .tunnel, generation := "g", origin := "o" }
  db := {
    projects := [limitsProject, { limitsProject with id := "q", roleName := otherName }]
    limits := [⟨"p", .default, 1, 0, "", 1⟩, ⟨"q", .default, 1, 0, "", 1⟩] }
  pg := { roles := [limitsRole, { limitsRole with name := otherName }] }

theorem limitsSite_unapplied : limitsSite.LimitsUnapplied := by
  have hroles : (limitsSite.db.projects.map Project.roleName).Nodup := by decide
  have hrows : ∀ l ∈ limitsSite.db.limits, l.appliedRevision < l.revision := by decide
  refine ⟨by decide, fun id id' x x' hx hx' hrole => ?_, fun id v hv => ?_⟩
  · obtain ⟨p, hp, rfl⟩ := Option.map_eq_some_iff.mp hx
    obtain ⟨p', hp', rfl⟩ := Option.map_eq_some_iff.mp hx'
    obtain ⟨hmem, rfl⟩ := Table.find_eq_some hp
    obtain ⟨hmem', rfl⟩ := Table.find_eq_some hp'
    exact congrArg Project.id (List.inj_on_of_nodup_map hroles hmem hmem' hrole)
  · obtain ⟨l, hl, rfl⟩ := Option.map_eq_some_iff.mp hv
    exact hrows l (Table.find_eq_some hl).1

/-- What is asked for while the first pass is at work. -/
def wantedLimits : Limits := { Limits.default with statementTimeoutMS := 5000 }

/-- A pass has read the limits when others are asked for; it applies those it has
    read, and the next pass the new ones. -/
def limitsMoves : Schedule :=
  .start (fun _ => syncLimits) :: thread 0 (List.replicate 3 .plain) ++
  .start (fun _ => Go.ignore (setProjectLimits "p" wantedLimits 1 0)) ::
    thread 1 (List.replicate 2 .plain) ++ thread 0 (List.replicate 5 .plain) ++
  .start (fun _ => syncLimits) :: thread 2 (List.replicate 6 .plain)

theorem limitsMoves_of : ∀ m ∈ limitsMoves, m.Of (recorded (limitsSystem everyFault)) := by
  have hthread : ∀ i replies, ∀ m ∈ thread i replies,
      m.Of (recorded (limitsSystem everyFault)) := by
    intro i replies m hm
    obtain ⟨k, -, rfl⟩ := List.mem_map.mp hm
    trivial
  simp only [limitsMoves, List.forall_mem_append, List.forall_mem_cons]
  exact ⟨⟨⟨⟨fun _ => .sync, hthread _ _⟩, fun _ => .set _ _ _ _, hthread _ _⟩, hthread _ _⟩,
    fun _ => .sync, hthread _ _⟩

/-- Then they are in force. -/
theorem limits_in_force_once :
    ∃ c l, Reaches (recorded (limitsSystem everyFault)) ⟨⟨limitsSite, []⟩, []⟩ c ∧
      c.state.site.db.projectLimits "p" = .ok l ∧ l.limits = wantedLimits ∧
      l.appliedRevision = 2 ∧ c.state.site.pg.Carries limitsName wantedLimits := by
  have hplayed : (play (fun _ k i h c => History.exec k i h c) limitsMoves
      ⟨⟨limitsSite, []⟩, []⟩).map (fun c => (c.state.site.db.project "p",
        c.state.site.db.projectLimits "p")) =
      some (.ok limitsProject, .ok ⟨"p", wantedLimits, 2, 2, "", 0⟩) := by decide +kernel
  obtain ⟨c, hplay, hc⟩ := Option.map_eq_some_iff.mp hplayed
  obtain ⟨hproject, hlimits⟩ := Prod.mk.inj hc
  have hreach : Reaches (recorded (limitsSystem everyFault)) ⟨⟨limitsSite, []⟩, []⟩ c :=
    play_reaches (fun _ _ _ _ _ _ _ he => History.exec_spec he) limitsMoves_of hplay
  refine ⟨c, _, hreach, hlimits, rfl, rfl, ?_⟩
  exact (limits_in_force limitsSite_unapplied hreach).2.1 "p" _ _ hproject rfl hlimits rfl

end Pgfy
