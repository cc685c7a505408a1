import Pgfy.Provision.Limits

/-! # Runs of the passes over the limits and of provisioning

    Any number of requests for new limits, of passes and of provisionings, in
    any interleaving, among anything else that leaves the recorded limits, the
    stages and the limits of the roles alone, and over restarts.
-/

namespace Pgfy

open Calendar Program

/-! ### The system -/

/-- The programs that have to do with limits. -/
inductive LimitsWork : Run Unit → Prop
  | set (id : String) (l : Limits) (seen : ℕ) (now : Instant) :
      LimitsWork (Go.ignore (setProjectLimits id l seen now))
  | sync : LimitsWork syncLimits
  | provision (listed : Project) :
      LimitsWork (Prog.bind (provisionListed listed) (fun _ => .ret ()))

/-- Everything else: projects are added, with limits that were not applied yet;
    nobody else changes a stage, a recorded revision or the limits of a role. -/
structure Site.LimitsAside (s s' : Site) : Prop where
  ids : (s'.db.projects.map Project.id).Nodup
  roles : ∀ id id' x x', s'.db.standing id = some x → s'.db.standing id' = some x' →
    x.1 = x'.1 → id = id'
  standing : ∀ id x, s.db.standing id = some x → s'.db.standing id = some x
  revision : ∀ id, (∃ x, s.db.standing id = some x) → s'.db.revision id = s.db.revision id
  row : ∀ id v, s.db.revision id = some v → s'.db.revision id = some v
  fresh : ∀ id v, s'.db.revision id = some v → s.db.standing id = none → v.applied < v.revision
  carries : ∀ id x, s.db.standing id = some x → ∀ l, s'.pg.Carries x.1 l ↔ s.pg.Carries x.1 l

def limitsSystem (fails : Faults) : System Site Call where
  answer i := fun _ s c r s' => Site.Replies fails i c s r s'
  starts _ p := LimitsWork p
  outside s s' := s'.locks = s.locks ∧ s.LimitsAside s'
  restarts _ s s' new := (∀ m, s'.locks m = none) ∧ s.LimitsAside s' ∧ ∀ p ∈ new, LimitsWork p

theorem Site.LimitsAside.kept {s s' : Site} (h : s.LimitsAside s') (hs : s.LimitsKept) :
    s'.LimitsKept := by
  refine ⟨h.ids, h.roles, fun id v hv => ?_, fun id x v hx hv happlied => ?_⟩
  · cases hstanding : s.db.standing id with
    | none => exact (h.fresh id v hv hstanding).le
    | some x => exact hs.bounded id v ((h.revision id ⟨x, hstanding⟩).symm.trans hv)
  · -- the project is not a new one
    cases hstanding : s.db.standing id with
    | none => exact absurd happlied (h.fresh id v hv hstanding).ne
    | some x' =>
      obtain rfl := Option.some.inj ((h.standing id x' hstanding).symm.trans hx)
      have hrow := (h.revision id ⟨x', hstanding⟩).symm.trans hv
      exact (h.carries id x' hstanding v.limits).mpr (hs.inForce id x' v hstanding hrow happlied)

theorem Site.LimitsAside.rely {s s' : Site} (hlocks : s'.locks = s.locks) (h : s.LimitsAside s')
    (i : ℕ) : limitsOwnership.discipline.rely i s s' := by
  refine ⟨⟨fun id x hx => ⟨x, h.standing id x hx, rfl⟩, fun id v hv =>
    ⟨v, h.row id v hv, le_rfl, fun _ => rfl⟩⟩, fun a ha => ?_⟩
  cases a with
  | lock m => exact ⟨(congrFun hlocks m).trans ha, trivial⟩
  | project id =>
    obtain ⟨x, hx, hlock⟩ := ha
    refine ⟨⟨x, h.standing id x hx, (congrFun hlocks _).trans hlock⟩,
      (h.standing id x hx).trans hx.symm, ?_, fun x' hx' => h.carries id x' hx'⟩
    rw [h.revision id ⟨x, hx⟩]

/-! ### What a thread knows -/

section
variable {fails : Faults} {i : ℕ} {s s' : Site} {id : String} {role : Text} {L : ProjectLimits}
  {m : Mutex}

/-- The thread holds the lock that counts for the project, and has read a
    revision that is the wanted one still or has been overtaken by one that is
    not applied. -/
structure Site.Charged (i : ℕ) (m : Mutex) (id : String) (role : Text) (L : ProjectLimits)
    (s : Site) : Prop where
  lock : s.locks m = some i
  standing : ∃ stage, s.db.standing id = some (role, stage) ∧ guardOf id stage = m
  revision : ∃ v, s.db.revision id = some v ∧ v.applied ≤ v.revision ∧
    L.revision ≤ v.revision ∧ (v.revision = L.revision → v.limits = L.limits) ∧
    (v.revision = L.revision ∨ v.applied < v.revision)

theorem Site.Charged.owns (h : s.Charged i m id role L) : s.OwnsLimits i (.project id) := by
  obtain ⟨stage, hstage, hguard⟩ := h.standing
  exact ⟨_, hstage, hguard ▸ h.lock⟩

theorem Site.Charged.carry (h : s.Charged i m id role L) (hgrow : s.LimitsGrow s')
    (hsame : s.SameFooting id s') (hlock : s'.locks m = some i) : s'.Charged i m id role L := by
  obtain ⟨stage, hstage, hguard⟩ := h.standing
  obtain ⟨v, hv, hbound, hle, hlimits, hcurrent⟩ := h.revision
  obtain ⟨v', hv', hle', hlimits'⟩ := hgrow.revision id v hv
  have happlied : v'.applied = v.applied := by
    have := hsame.applied
    rw [hv, hv'] at this
    exact Option.some.inj this
  refine ⟨hlock, ⟨stage, hsame.standing.trans hstage, hguard⟩, v', hv', ?_, hle.trans hle', ?_, ?_⟩
  · rw [happlied]
    exact hbound.trans hle'
  · intro heq
    have hmid : v'.revision = v.revision := le_antisymm (heq ▸ hle) hle'
    rw [hlimits' hmid, hlimits (hmid.symm.trans heq)]
  · rw [happlied]
    rcases hcurrent with hcurrent | hcurrent
    · rcases hle'.eq_or_lt with heq | hlt
      · exact Or.inl (heq.symm.trans hcurrent)
      · exact Or.inr (hbound.trans_lt hlt)
    · exact Or.inr (hcurrent.trans_le hle')

/-- What the thread is charged with, no other takes away. -/
theorem Site.Charged.stable : limitsOwnership.Stable i (Site.Charged i m id role L) := by
  intro s s' hr _ h
  obtain ⟨-, hsame⟩ := hr.2 (.project id) h.owns
  exact h.carry hr.1 hsame (hr.2 (.lock m) h.lock).1

theorem lockHeld_stable : limitsOwnership.Stable i (fun s => s.locks m = some i) :=
  fun _ _ hr _ h => (hr.2 (.lock m) h).1

/-- The same with something that is known about the limits of the role. -/
theorem Site.Charged.carries_stable : limitsOwnership.Stable i
    (fun s => s.Charged i m id role L ∧ s.pg.Carries role L.limits) := by
  intro s s' hr hi h
  obtain ⟨-, hsame⟩ := hr.2 (.project id) h.1.owns
  obtain ⟨stage, hstage, -⟩ := h.1.standing
  exact ⟨Site.Charged.stable s s' hr hi h.1, (hsame.carries _ hstage L.limits).mpr h.2⟩

/-! ### Work on one project -/

/-- What the owner of a project does to it leaves the others alone. -/
structure Site.Works (id : String) (s s' : Site) : Prop where
  locks : s'.locks = s.locks
  grows : s.LimitsGrow s'
  others : ∀ id', id' ≠ id → s.SameFooting id' s'

theorem Site.Works.refl (id : String) (s : Site) : s.Works id s :=
  ⟨rfl, .refl s, fun _ _ => ⟨rfl, rfl, fun _ _ _ => Iff.rfl⟩⟩

theorem Site.Works.guar (h : s.Works id s') (hs : s.LimitsKept)
    (howns : s.OwnsLimits i (.project id)) : limitsOwnership.discipline.guar i s s' := by
  refine ⟨h.grows, fun a => ?_, fun j a hj ha => ?_⟩
  · cases a with
    | lock m => exact Or.inl trivial
    | project id' =>
      by_cases hid : id' = id
      · exact Or.inr (hid ▸ howns)
      · exact Or.inl (h.others id' hid)
  · cases a with
    | lock m => exact (congrFun h.locks m).trans ha
    | project id' =>
      by_cases hid : id' = id
      · subst hid
        exact absurd (limitsOwnership.exclusive hs ha howns) hj
      · obtain ⟨x, hx, hlock⟩ := ha
        exact ⟨x, (h.others id' hid).standing.trans hx, (congrFun h.locks _).trans hlock⟩

/-- A property that others leave alone, and that work on the project does not touch. -/
structure Aloof (i : ℕ) (id : String) (P : Site → Prop) : Prop where
  stable : limitsOwnership.Stable i P
  works : ∀ {s s'}, s.Works id s' → P s → P s'

theorem aloof_lockHeld : Aloof i id (fun s => s.locks m = some i) :=
  ⟨lockHeld_stable, fun h hs => (congrFun h.locks m).trans hs⟩

/-- Setting the limits on the role. -/
theorem Site.Charged.applyLimits {r : Except Err Unit} (hs : s.LimitsKept)
    (h : s.Charged i m id role L)
    (hr : Site.Replies fails i
      (.pg (.applyLimits role (limitSettings L.limits) L.limits.connectionLimit)) s r s') :
    s'.LimitsKept ∧ s.Works id s' ∧ s'.Charged i m id role L ∧
      (r = .ok () → s'.pg.Carries role L.limits) := by
  obtain ⟨stage, hstage, -⟩ := h.standing
  obtain ⟨v, hv, -, -, hlimits, hcurrent⟩ := h.revision
  rcases hr with ⟨a, pg, hrun, -, rfl⟩ | ⟨e, rfl, -, rfl⟩
  · have hcarries : pg.Carries role L.limits := Postgres.carries_applyLimits hrun
    have hothers : ∀ id' x, id' ≠ id → s.db.standing id' = some x →
        ∀ l, pg.Carries x.1 l ↔ s.pg.Carries x.1 l := by
      intro id' x hid hx l
      refine Postgres.carries_applyLimits_of_ne (fun heq => hid ?_) hrun
      exact hs.roles id' id x _ hx hstage heq
    refine ⟨⟨hs.ids, hs.roles, hs.bounded, fun id' x v' hx hv' happlied => ?_⟩,
      ⟨rfl, ⟨fun _ x hx => ⟨x, hx, rfl⟩, fun _ v hv => ⟨v, hv, le_rfl, fun _ => rfl⟩⟩,
        fun id' hid => ⟨rfl, rfl, fun x hx => hothers id' x hid hx⟩⟩,
      ⟨h.lock, h.standing, h.revision⟩, fun _ => hcarries⟩
    by_cases hid : id' = id
    · -- an applied revision is the one the thread has read
      subst hid
      obtain rfl := Option.some.inj (hstage.symm.trans hx)
      obtain rfl := Option.some.inj (hv.symm.trans hv')
      have hrevision : v.revision = L.revision := hcurrent.resolve_right (by omega)
      rw [hlimits hrevision]
      exact hcarries
    · exact (hothers id' x hid hx v'.limits).mpr (hs.inForce id' x v' hx hv' happlied)
  · exact ⟨hs, .refl id _, h, fun heq => by cases heq⟩

theorem Database.revision_markLimitsApplied (id : String) (n : ℕ) (db : Database) :
    (db.markLimitsApplied id n).revision id =
      (db.revision id).map (fun v => if v.revision = n then { v with applied := n } else v) := by
  unfold Database.revision Database.markLimitsApplied
  rw [Table.find_modify]
  · simp only [Option.map_map]
    congr 1
    funext o
    by_cases hn : o.revision = n
    · simp [ProjectLimits.asRevision, hn]
    · simp [ProjectLimits.asRevision, hn]
  · intro o ho
    split
    · exact ho
    · exact ho

theorem Database.revision_markLimitsApplied_of_ne {id id' : String} (n : ℕ) (db : Database)
    (hne : id' ≠ id) : (db.markLimitsApplied id n).revision id' = db.revision id' := by
  unfold Database.revision Database.markLimitsApplied
  rw [Table.find_modify_of_ne _ hne]
  intro o ho
  split
  · exact ho
  · exact ho

/-- Recording the revision as applied, once the role carries it. -/
theorem Site.Charged.markLimitsApplied {r : Except Err Unit} (hs : s.LimitsKept)
    (h : s.Charged i m id role L) (hcarries : s.pg.Carries role L.limits)
    (hr : Site.Replies fails i (.store (.markLimitsApplied id L.revision)) s r s') :
    s'.LimitsKept ∧ s.Works id s' ∧ s'.Charged i m id role L := by
  obtain ⟨stage, hstage, hguard⟩ := h.standing
  obtain ⟨v, hv, hbound, hle, hlimits, hcurrent⟩ := h.revision
  rcases hr with ⟨a, db, hrun, -, rfl⟩ | ⟨e, -, -, rfl⟩
  · obtain rfl := StoreCall.write_eq_ok.mp hrun
    have hself := Database.revision_markLimitsApplied id L.revision s.db
    rw [hv, Option.map_some] at hself
    have hother : ∀ id', id' ≠ id →
        (s.db.markLimitsApplied id L.revision).revision id' = s.db.revision id' :=
      fun _ => Database.revision_markLimitsApplied_of_ne L.revision s.db
    refine ⟨⟨hs.ids, hs.roles, fun id' v' hv' => ?_, fun id' x v' hx hv' happlied => ?_⟩,
      ⟨rfl, ⟨fun _ x hx => ⟨x, hx, rfl⟩, fun id' v' hv' => ?_⟩, fun id' hid =>
        ⟨rfl, congrArg _ (hother id' hid), fun _ _ _ => Iff.rfl⟩⟩,
      ⟨h.lock, ⟨stage, hstage, hguard⟩, _, hself, ?_⟩⟩
    · by_cases hid : id' = id
      · subst hid
        obtain rfl := Option.some.inj (hself.symm.trans hv')
        split
        · next heq => exact heq.ge
        · exact hbound
      · exact hs.bounded id' v' ((hother id' hid).symm.trans hv')
    · by_cases hid : id' = id
      · subst hid
        obtain rfl := Option.some.inj (hself.symm.trans hv')
        obtain rfl := Option.some.inj (hstage.symm.trans hx)
        by_cases heq : v.revision = L.revision
        · rw [if_pos heq]
          show s.pg.Carries role v.limits
          rw [hlimits heq]
          exact hcarries
        · rw [if_neg heq] at happlied ⊢
          exact hs.inForce id' _ v hx hv happlied
      · exact hs.inForce id' x v' hx ((hother id' hid).symm.trans hv') happlied
    · by_cases hid : id' = id
      · subst hid
        obtain rfl := Option.some.inj (hv.symm.trans hv')
        refine ⟨_, hself, ?_, fun _ => ?_⟩
        · split <;> exact le_rfl
        · split <;> rfl
      · exact ⟨v', (hother id' hid).trans hv', le_rfl, fun _ => rfl⟩
    · split
      · next heq => exact ⟨heq.ge, hle, hlimits, Or.inl heq⟩
      · exact ⟨hbound, hle, hlimits, hcurrent⟩
  · exact ⟨hs, .refl id _, h⟩

/-- Recording a stage. -/
theorem Site.Charged.setProjectStage {stage : Stage} {now : Instant} {r : Except Err Unit}
    (hs : s.LimitsKept) (h : s.Charged i (.rotation id) id role L)
    (hr : Site.Replies fails i (.store (.setProjectStage id stage now)) s r s') :
    s'.LimitsKept ∧ s.Works id s' ∧
      (stage ≠ .ready ∨ r ≠ .ok () → s'.Charged i (.rotation id) id role L) := by
  obtain ⟨before, hbefore, hguard⟩ := h.standing
  rcases hr with ⟨a, db, hrun, rfl, rfl⟩ | ⟨e, -, -, rfl⟩
  · obtain rfl := StoreCall.write_eq_ok.mp hrun
    have hkey : ∀ p : Project, p.id = id → (if p.stage = .deleting then p
        else if stage = .ready then { p with stage := stage, readyAt := unix now }
        else { p with stage := stage }).id = id := by
      intro p hp
      split
      · exact hp
      · split
        · exact hp
        · exact hp
    have hself : (s.db.setProjectStage id stage now).standing id =
        some (role, if before = .deleting then before else stage) := by
      unfold Database.standing at hbefore ⊢
      obtain ⟨p, hp, heq⟩ := Option.map_eq_some_iff.mp hbefore
      obtain ⟨rfl, rfl⟩ := Prod.mk.inj heq
      unfold Database.setProjectStage Database.modifyProject
      rw [Table.find_modify hkey, hp]
      by_cases hdel : p.stage = .deleting
      · simp [hdel]
      · by_cases hready : stage = .ready
        · simp [hdel, hready]
        · simp [hdel, hready]
    have hother : ∀ id', id' ≠ id →
        (s.db.setProjectStage id stage now).standing id' = s.db.standing id' := by
      intro id' hid
      unfold Database.standing Database.setProjectStage Database.modifyProject
      rw [Table.find_modify_of_ne hkey hid]
    -- the role of every project is what it was
    have hrole : ∀ id' x, (s.db.setProjectStage id stage now).standing id' = some x →
        ∃ x', s.db.standing id' = some x' ∧ x'.1 = x.1 := by
      intro id' x hx
      by_cases hid : id' = id
      · subst hid
        obtain rfl := Option.some.inj (hself.symm.trans hx)
        exact ⟨_, hbefore, rfl⟩
      · exact ⟨x, (hother id' hid).symm.trans hx, rfl⟩
    refine ⟨⟨?_, fun id₁ id₂ x₁ x₂ h₁ h₂ heq => ?_, hs.bounded, fun id' x v hx hv happlied => ?_⟩,
      ⟨rfl, ⟨fun id' x hx => ?_, fun _ v hv => ⟨v, hv, le_rfl, fun _ => rfl⟩⟩, fun id' hid =>
        ⟨hother id' hid, rfl, fun _ _ _ => Iff.rfl⟩⟩, fun hnot =>
      ⟨h.lock, ⟨_, hself, ?_⟩, h.revision⟩⟩
    · show ((s.db.setProjectStage id stage now).projects.map Project.id).Nodup
      rw [show (s.db.setProjectStage id stage now).projects.map Project.id =
        s.db.projects.map Project.id from Table.map_key_modify (fun p _ hp => hkey p hp)]
      exact hs.ids
    · obtain ⟨y₁, hy₁, hrole₁⟩ := hrole id₁ x₁ h₁
      obtain ⟨y₂, hy₂, hrole₂⟩ := hrole id₂ x₂ h₂
      exact hs.roles id₁ id₂ y₁ y₂ hy₁ hy₂ (hrole₁.trans (heq.trans hrole₂.symm))
    · obtain ⟨y, hy, hyrole⟩ := hrole id' x hx
      rw [← hyrole]
      exact hs.inForce id' y v hy hv happlied
    · by_cases hid : id' = id
      · subst hid
        obtain rfl := Option.some.inj (hbefore.symm.trans hx)
        exact ⟨_, hself, rfl⟩
      · exact ⟨x, (hother id' hid).trans hx, rfl⟩
    · have hready : stage ≠ .ready := hnot.resolve_right (fun hne => hne rfl)
      unfold guardOf
      rw [if_neg]
      split
      · next hdel =>
        rw [hdel]
        decide
      · exact hready
  · exact ⟨hs, .refl id _, fun _ => h⟩

/-! ### Threads -/

/-- A thread among the others. -/
abbrev limitsSetting (fails : Faults) (i : ℕ) : Setting Site Call :=
  limitsOwnership.discipline.setting (limitsSystem fails) i

/-- Calls that anybody may make. -/
theorem safe_limitsMild {α : Type} {p : Run α} {P : Site → Prop}
    (stable : limitsOwnership.Stable i P) (hp : p.Calls Call.LimitsMild) (hs : P s) :
    Safe (limitsSetting fails i) p (fun _ s' => P s') s :=
  limitsOwnership.safe_free
    (fun _ _ hc _ _ _ hi ha => ⟨(hc.replies ha).kept hi, (hc.replies ha).free⟩) stable hp hs

/-- Taking a lock or giving it back takes nothing away from the others. -/
theorem guar_withLock {holder : Option ℕ} (hothers : ∀ j m', j ≠ i → s.locks m' = some j →
    (s.withLock m holder).locks m' = some j) :
    limitsOwnership.discipline.guar i s (s.withLock m holder) := by
  refine ⟨⟨fun _ x hx => ⟨x, hx, rfl⟩, fun _ v hv => ⟨v, hv, le_rfl, fun _ => rfl⟩⟩,
    fun a => Or.inl ?_, fun j a hj ha => ?_⟩
  · cases a with
    | lock m' => trivial
    | project id' => exact ⟨rfl, rfl, fun _ _ _ => Iff.rfl⟩
  · cases a with
    | lock m' => exact hothers j m' hj ha
    | project id' =>
      obtain ⟨x, hx, hlock⟩ := ha
      exact ⟨x, hx, hothers j _ hj hlock⟩

theorem safe_lockLimits :
    Safe (limitsSetting fails i) (Prog.ask (.lock m)) (fun _ s' => s'.locks m = some i) s := by
  refine Safe.ask (fun s₁ hr hi r s₂ ha => ?_)
  obtain ⟨hfree, rfl⟩ := ha
  refine ⟨⟨hi.ids, hi.roles, hi.bounded, hi.inForce⟩, guar_withLock (fun j m' _ hj => ?_),
    fun s₃ hr' hi' => lockHeld_stable _ _ hr' hi' (Function.update_self _ _ _)⟩
  have hne : m' ≠ m := by
    rintro rfl
    rw [hfree] at hj
    cases hj
  exact (Function.update_of_ne hne _ _).trans hj

theorem safe_unlockLimits (hs : s.locks m = some i) :
    Safe (limitsSetting fails i) (Prog.ask (.unlock m)) (fun _ _ => True) s := by
  refine Safe.ask (fun s₁ hr hi r s₂ ha => ?_)
  obtain rfl : s₂ = s₁.withLock m none := ha
  have hmine := lockHeld_stable _ _ hr hi hs
  refine ⟨⟨hi.ids, hi.roles, hi.bounded, hi.inForce⟩, guar_withLock (fun j m' hne hj => ?_),
    fun _ _ _ => trivial⟩
  have hm : m' ≠ m := by
    rintro rfl
    exact hne (Option.some.inj (hj.symm.trans hmine))
  exact (Function.update_of_ne hm _ _).trans hj

/-- Setting the limits on the role, with what is known besides. -/
theorem safe_applyRoleLimits {P : Site → Prop} (hP : Aloof i id P)
    (h : s.Charged i m id role L) (hs : P s) :
    Safe (limitsSetting fails i)
      (applyRoleLimits role (limitSettings L.limits) L.limits.connectionLimit)
      (fun r s' => s'.Charged i m id role L ∧ P s' ∧
        (r = .ok () → s'.pg.Carries role L.limits)) s := by
  unfold applyRoleLimits Go.ensure
  split
  · refine Safe.ask (fun s₁ hr hi r s₂ ha => ?_)
    have h₁ := Site.Charged.stable _ _ hr hi h
    obtain ⟨hkept, hworks, h₂, hok⟩ := h₁.applyLimits hi ha
    refine ⟨hkept, hworks.guar hi h₁.owns, fun s₃ hr' hi' => ?_⟩
    refine ⟨Site.Charged.stable _ _ hr' hi' h₂,
      hP.stable _ _ hr' hi' (hP.works hworks (hP.stable _ _ hr hi hs)), fun hdone => ?_⟩
    exact (Site.Charged.carries_stable _ _ hr' hi' ⟨h₂, hok hdone⟩).2
  · refine Safe.ret (fun s' hr hi => ?_)
    exact ⟨Site.Charged.stable _ _ hr hi h, hP.stable _ _ hr hi hs, fun heq => by cases heq⟩

/-- Recording them as applied. -/
theorem safe_markLimitsApplied {P : Site → Prop} (hP : Aloof i id P)
    (h : s.Charged i m id role L) (hcarries : s.pg.Carries role L.limits) (hs : P s) :
    Safe (limitsSetting fails i) (store (.markLimitsApplied id L.revision))
      (fun _ s' => s'.Charged i m id role L ∧ P s') s := by
  refine Safe.ask (fun s₁ hr hi r s₂ ha => ?_)
  obtain ⟨h₁, hcarries₁⟩ := Site.Charged.carries_stable _ _ hr hi ⟨h, hcarries⟩
  obtain ⟨hkept, hworks, h₂⟩ := h₁.markLimitsApplied hi hcarries₁ ha
  refine ⟨hkept, hworks.guar hi h₁.owns, fun s₃ hr' hi' => ?_⟩
  exact ⟨Site.Charged.stable _ _ hr' hi' h₂,
    hP.stable _ _ hr' hi' (hP.works hworks (hP.stable _ _ hr hi hs))⟩

theorem safe_applyLimits {P : Site → Prop} (hP : Aloof i id P)
    (h : s.Charged i m id role L) (hs : P s) :
    Safe (limitsSetting fails i) (applyLimits id role L)
      (fun _ s' => s'.Charged i m id role L ∧ P s') s := by
  refine Safe.bindAction (Safe.mono (fun r s₁ h₁ => ?_) (safe_applyRoleLimits hP h hs))
  obtain ⟨hcharged, hs₁, hcarries⟩ := h₁
  cases r with
  | ok u => exact safe_markLimitsApplied hP hcharged (hcarries rfl) hs₁
  | error e =>
    exact Safe.ret (fun s' hr hi =>
      ⟨Site.Charged.stable _ _ hr hi hcharged, hP.stable _ _ hr hi hs₁⟩)

end

/-! ### The calls of the programs -/

section
variable {K : ∀ ⦃β : Type⦄, Call β → Prop}

theorem calls_ensure {β : Type} {c : Bool} {e : Err} {f : Unit → Go β}
    (h : c = true → Prog.Calls K (f ())) : Prog.Calls K ((Go.ensure c e).bind f) := by
  cases c with
  | true => exact h rfl
  | false => trivial

theorem calls_of {β : Type} (r : Except Err β) : Prog.Calls K (Go.of r) := trivial

theorem calls_ignore {β : Type} {x : Go β} (hx : Prog.Calls K x) : (Go.ignore x).Calls K :=
  hx.bind (fun _ => trivial)

theorem calls_attempt {β : Type} {x : Go β} (hx : Prog.Calls K x) : Prog.Calls K (Go.attempt x) :=
  hx.lift

end

theorem resetDatabaseLimits_calls (role database : Text) (keys : List String) :
    Prog.Calls (fun _ c => c.LimitsMild ∧ c.LimitsTidy)
      (resetDatabaseLimits role database keys) := by
  refine calls_ensure (fun _ => .forEach (fun key => calls_ensure (fun hkey =>
    .ask ⟨trivial, ?_, not_false⟩)))
  intro key' hkey'
  obtain rfl := List.mem_singleton.mp hkey'
  obtain ⟨kv, hkv, heq⟩ := List.any_eq_true.mp hkey
  rw [← of_decide_eq_true heq, ← limitSettings_keys]
  exact List.mem_map_of_mem hkv

theorem ensureRole_calls (name : Text) (password : String) (connectionLimit : ℤ) :
    Prog.Calls (fun _ c => c.LimitsMild ∧ c.LimitsTidy)
      (ensureRole name password connectionLimit) := by
  refine calls_ensure (fun _ => ?_)
  refine Prog.Calls.bindAction (.ask ⟨trivial, trivial, not_false⟩) (fun info => ?_)
  cases info with
  | some info | none => exact calls_ensure (fun _ => .ask ⟨trivial, trivial, not_false⟩)

theorem ensureDatabase_calls (name owner : Text) :
    Prog.Calls (fun _ c => c.LimitsMild ∧ c.LimitsTidy) (ensureDatabase name owner) := by
  refine calls_ensure (fun _ => ?_)
  refine Prog.Calls.bindAction (.ask ⟨trivial, trivial, not_false⟩) (fun existing => ?_)
  cases existing with
  | some existing => exact calls_ensure (fun _ => .ask ⟨trivial, trivial, not_false⟩)
  | none =>
    exact Prog.Calls.bindAction (.ask ⟨trivial, trivial, not_false⟩)
      (fun _ => .ask ⟨trivial, trivial, not_false⟩)

theorem setProjectLimits_calls (id : String) (l : Limits) (seen : ℕ) (now : Instant) :
    Prog.Calls (fun _ c => c.LimitsMild ∧ c.LimitsTidy) (setProjectLimits id l seen now) := by
  have hread : Call.LimitsMild (.store (.projectLimits id)) ∧
      Call.LimitsTidy (.store (.projectLimits id)) :=
    ⟨⟨not_false, not_false⟩, trivial, not_false⟩
  refine Prog.Calls.bindAction (calls_of l.validate) (fun _ => ?_)
  refine Prog.Calls.bindAction (.ask ⟨trivial, trivial, not_false⟩) (fun current => ?_)
  cases current with
  | true => exact .ask hread
  | false => exact Prog.Calls.bindAction (.ask hread) (fun _ => trivial)

/-! ### A pass over the limits -/

section
variable {fails : Faults} {i : ℕ} {s s' : Site} {states : List (Text × RoleState)}
  {x : Project × ProjectLimits}

/-- What a pass knows of a project it has still to look at. -/
structure Site.Listed (i : ℕ) (states : List (Text × RoleState)) (x : Project × ProjectLimits)
    (s : Site) : Prop where
  charged : s.Charged i .limits x.1.id x.1.roleName x.2
  seen : ∀ kv, Table.find Prod.fst x.1.roleName states = some kv →
    drifted x.2.limits kv.2 = false → s.pg.Carries x.1.roleName x.2.limits

theorem Site.Listed.carry (h : s.Listed i states x) (hgrow : s.LimitsGrow s')
    (hsame : s.SameFooting x.1.id s') (hlock : s'.locks .limits = some i) :
    s'.Listed i states x := by
  refine ⟨h.charged.carry hgrow hsame hlock, fun kv hkv hdrift => ?_⟩
  obtain ⟨stage, hstage, -⟩ := h.charged.standing
  exact (hsame.carries _ hstage x.2.limits).mpr (h.seen kv hkv hdrift)

theorem Site.Listed.stable : limitsOwnership.Stable i (Site.Listed i states x) := by
  intro s s' hr _ h
  obtain ⟨-, hsame⟩ := hr.2 (.project x.1.id) h.charged.owns
  exact h.carry hr.1 hsame (hr.2 (.lock .limits) h.charged.lock).1

/-- One project of the pass, with what is known besides. -/
theorem safe_syncProjectLimits {P : Site → Prop} (hP : Aloof i x.1.id P)
    (h : s.Listed i states x) (hs : P s) :
    Safe (limitsSetting fails i) (syncProjectLimits states x) (fun _ s' => P s') s := by
  unfold syncProjectLimits
  split
  · exact Safe.ret (fun s' hr hi => hP.stable _ _ hr hi hs)
  · next key state hfind =>
    have hboth : limitsOwnership.Stable i (fun s => s.Listed i states x ∧ P s) :=
      fun s s' hr hi h => ⟨Site.Listed.stable _ _ hr hi h.1, hP.stable _ _ hr hi h.2⟩
    refine Safe.bind (Safe.mono (fun _ s₁ h₁ => ?_) (safe_limitsMild hboth ?_ ⟨h, hs⟩))
    · obtain ⟨hlisted, hs₁⟩ := h₁
      unfold repairLimits
      split
      · refine Safe.bind (Safe.mono (fun r s₂ h₂ => ?_)
          (safe_applyLimits hP hlisted.charged hs₁))
        cases r with
        | ok u => exact Safe.ret (fun s' hr hi => hP.stable _ _ hr hi h₂.2)
        | error e => exact safe_limitsMild hP.stable (calls_ignore (.ask trivial)) h₂.2
      · next hdrift =>
        have hcarries := hlisted.seen _ hfind (by simpa using hdrift)
        split
        · refine Safe.bind (Safe.mono (fun r s₂ h₂ => ?_)
            (safe_markLimitsApplied hP hlisted.charged hcarries hs₁))
          exact Safe.ret (fun s' hr hi => hP.stable _ _ hr hi h₂.2)
        · exact Safe.ret (fun s' hr hi => hP.stable _ _ hr hi hs₁)
    · unfold removeOverrides
      split
      · exact (calls_ignore (resetDatabaseLimits_calls _ _ _)).mono (fun _ _ hc => hc.1)
      · trivial

/-- The projects still to be looked at. -/
theorem safe_syncEach {rest : List (Project × ProjectLimits)}
    (hdistinct : (rest.map (fun x => x.1.id)).Nodup) (hlock : s.locks .limits = some i)
    (h : ∀ x ∈ rest, s.Listed i states x) :
    Safe (limitsSetting fails i) (Run.forEach (syncProjectLimits states) rest)
      (fun _ s' => s'.locks .limits = some i) s := by
  induction rest generalizing s with
  | nil => exact Safe.ret (fun s' hr hi => lockHeld_stable _ _ hr hi hlock)
  | cons x rest ih =>
    obtain ⟨hnew, hrest⟩ := List.nodup_cons.mp hdistinct
    have haloof : Aloof i x.1.id
        (fun s => s.locks .limits = some i ∧ ∀ y ∈ rest, s.Listed i states y) := by
      refine ⟨fun s s' hr hi h => ⟨lockHeld_stable _ _ hr hi h.1, fun y hy =>
        Site.Listed.stable _ _ hr hi (h.2 y hy)⟩, fun hworks h => ?_⟩
      have hlock' := (congrFun hworks.locks .limits).trans h.1
      refine ⟨hlock', fun y hy => (h.2 y hy).carry hworks.grows (hworks.others _ ?_) hlock'⟩
      intro heq
      exact hnew (List.mem_map.mpr ⟨y, hy, heq⟩)
    refine Safe.bind (Safe.mono (fun _ s₁ h₁ => ih hrest h₁.1 h₁.2)
      (safe_syncProjectLimits haloof (h x List.mem_cons_self) ?_))
    exact ⟨hlock, fun y hy => h y (List.mem_cons_of_mem _ hy)⟩

/-- What a pass lists. -/
theorem Database.mem_readyProjectLimits {db : Database} (h : x ∈ db.readyProjectLimits) :
    x.1 ∈ db.projects ∧ x.1.stage = .ready ∧
      Table.find ProjectLimits.projectID x.1.id db.limits = some x.2 := by
  unfold readyProjectLimits at h
  obtain ⟨p, hp, hpair⟩ := List.mem_filterMap.mp ((List.mem_insertionSort _).mp h)
  obtain ⟨l, hfind, rfl⟩ := Option.map_eq_some_iff.mp hpair
  obtain ⟨hmem, hstage⟩ := List.mem_filter.mp hp
  exact ⟨hmem, by simpa using hstage, hfind⟩

theorem Database.readyProjectLimits_distinct {db : Database}
    (hids : (db.projects.map Project.id).Nodup) :
    (db.readyProjectLimits.map (fun x => x.1.id)).Nodup := by
  refine List.Nodup.map_on (fun x hx y hy hid => ?_) ?_
  · obtain ⟨hx, -, hlx⟩ := mem_readyProjectLimits hx
    obtain ⟨hy, -, hly⟩ := mem_readyProjectLimits hy
    have hproject : x.1 = y.1 := List.inj_on_of_nodup_map hids hx hy hid
    rw [hproject, hly] at hlx
    exact Prod.ext hproject (Option.some.inj hlx).symm
  · unfold readyProjectLimits
    rw [(List.perm_insertionSort _ _).nodup_iff]
    refine List.Nodup.filterMap (fun p p' z hz hz' => ?_)
      ((List.Nodup.of_map Project.id hids).filter _)
    obtain ⟨l, -, rfl⟩ := Option.map_eq_some_iff.mp hz
    obtain ⟨l', -, heq⟩ := Option.map_eq_some_iff.mp hz'
    exact (congrArg Prod.fst heq).symm

/-- What a pass reads of a role is what it carries. -/
theorem Postgres.find_roleStates {pg : Postgres} {role : Text} {kv : Text × RoleState}
    (h : Table.find Prod.fst role ((pg.roles.filter (fun r => validName r.name)).map
      (fun r => (r.name, r.state))) = some kv) : ∃ r, pg.role role = some r ∧ r.state = kv.2 := by
  unfold Postgres.role
  generalize pg.roles = roles at h ⊢
  induction roles with
  | nil => cases h
  | cons r rest ih =>
    by_cases hname : r.name = role
    · refine ⟨r, by simp [Table.find, hname], ?_⟩
      by_cases hvalid : validName r.name = true
      · rw [List.filter_cons_of_pos (p := fun r : PgRole => validName r.name) hvalid,
          List.map_cons] at h
        simp only [Table.find, List.find?_cons, hname, decide_true] at h
        rw [← Option.some.inj h]
      · -- a name that is not a generated one is not listed at all
        obtain ⟨hmem, hkey⟩ := Table.find_eq_some h
        obtain ⟨r', hr', rfl⟩ := List.mem_map.mp hmem
        have := (List.mem_filter.mp hr').2
        rw [show r'.name = r.name from hkey.trans hname.symm] at this
        exact absurd this hvalid
    · have hrest : Table.find Prod.fst role ((rest.filter (fun r => validName r.name)).map
          (fun r => (r.name, r.state))) = some kv := by
        by_cases hvalid : validName r.name = true
        · simpa [Table.find, List.filter_cons, hvalid, hname] using h
        · simpa [List.filter_cons, hvalid] using h
      obtain ⟨r', hr', hstate⟩ := ih hrest
      exact ⟨r', by simpa [Table.find, hname] using hr', hstate⟩

/-- Right after the listing the pass is charged with every project on it. -/
theorem Site.charged_of_listed (hs : s.LimitsKept) (hlock : s.locks .limits = some i)
    (hx : x ∈ s.db.readyProjectLimits) : s.Charged i .limits x.1.id x.1.roleName x.2 := by
  obtain ⟨hmem, hstage, hlimits⟩ := Database.mem_readyProjectLimits hx
  have hproject := Table.find_of_mem hs.ids hmem
  have hrevision : s.db.revision x.1.id = some x.2.asRevision := by
    rw [Database.revision, hlimits]
    rfl
  refine ⟨hlock, ⟨.ready, ?_, rfl⟩, _, hrevision, hs.bounded _ _ hrevision, le_rfl, fun _ => rfl,
    Or.inl rfl⟩
  rw [Database.standing, hproject, Option.map_some, hstage]

theorem safe_syncLimitsLocked (hs : s.locks .limits = some i) :
    Safe (limitsSetting fails i) syncLimitsLocked (fun _ s' => s'.locks .limits = some i) s := by
  refine Safe.bind (Safe.ask (fun s₁ hr hi r s₂ ha => ?_))
  have hlock₁ := lockHeld_stable _ _ hr hi hs
  have hmild : Call.LimitsMild (.store .readyProjectLimits) := ⟨not_false, not_false⟩
  have hmild₂ := hmild.replies (i := i) ha
  refine ⟨hmild₂.kept hi, hmild₂.free.guar, fun s₃ hr₃ hi₃ => ?_⟩
  have hlock₂ := lockHeld_stable _ _ hmild₂.free.rely (hmild₂.kept hi) hlock₁
  have hlock₃ := lockHeld_stable _ _ hr₃ hi₃ hlock₂
  rcases ha with ⟨listing, db, hrun, rfl, rfl⟩ | ⟨e, rfl, -, rfl⟩
  · obtain ⟨rfl, rfl⟩ := StoreCall.read_eq_ok.mp hrun
    have hdistinct := Database.readyProjectLimits_distinct hi.ids
    have hcharged : ∀ x ∈ s₁.db.readyProjectLimits,
        s₃.Charged i .limits x.1.id x.1.roleName x.2 := fun x hx =>
      Site.Charged.stable _ _ hr₃ hi₃ (Site.charged_of_listed hi hlock₁ hx)
    generalize s₁.db.readyProjectLimits = listing at hdistinct hcharged
    cases listing with
    | nil => exact Safe.ret (fun s' hr hi => lockHeld_stable _ _ hr hi hlock₃)
    | cons x rest =>
      refine Safe.bind (Safe.ask (fun s₄ hr₄ hi₄ r s₅ ha₅ => ?_))
      have hmild₅ := Call.LimitsMild.replies (i := i) (c := .pg .roleStates) trivial ha₅
      refine ⟨hmild₅.kept hi₄, hmild₅.free.guar, fun s₆ hr₆ hi₆ => ?_⟩
      have hcharged₅ : ∀ y ∈ x :: rest, s₅.Charged i .limits y.1.id y.1.roleName y.2 :=
        fun y hy => Site.Charged.stable _ _ hmild₅.free.rely (hmild₅.kept hi₄)
          (Site.Charged.stable _ _ hr₄ hi₄ (hcharged y hy))
      have hlock₆ := lockHeld_stable _ _ hr₆ hi₆ (hcharged₅ x List.mem_cons_self).lock
      cases r with
      | error e => exact Safe.ret (fun s' hr hi => lockHeld_stable _ _ hr hi hlock₆)
      | ok states =>
        refine safe_syncEach hdistinct hlock₆ (fun y hy => Site.Listed.stable _ _ hr₆ hi₆ ?_)
        refine ⟨hcharged₅ y hy, fun kv hkv hdrift => ?_⟩
        rcases ha₅ with ⟨a, pg, hrun₅, hok | ⟨-, e, he⟩, rfl⟩ | ⟨e, he, -, -⟩
        · cases hrun₅
          cases hok
          obtain ⟨role, hrole, hstate⟩ := Postgres.find_roleStates hkv
          exact ⟨role, hrole, hstate ▸ drifted_eq_false.mp hdrift⟩
        · cases he
        · cases he
  · exact Safe.ret (fun s' hr hi => lockHeld_stable _ _ hr hi hlock₃)

theorem sound_syncLimits :
    limitsOwnership.discipline.Sound (limitsSystem fails) i syncLimits s := by
  refine Safe.bind (Safe.mono (fun _ s₁ h₁ => ?_) safe_lockLimits)
  refine Safe.bind (Safe.mono (fun _ s₂ h₂ => ?_) (safe_syncLimitsLocked h₁))
  exact safe_unlockLimits h₂

end

/-! ### Provisioning -/

section
variable {fails : Faults} {i : ℕ} {s s' : Site} {id : String} {role : Text} {L : ProjectLimits}
  {P : Site → Prop}

/-- A stage that is tried again keeps what each try keeps. -/
theorem safe_retryFrom (stable : limitsOwnership.Stable i P) {x : Go Unit}
    (hx : ∀ s, P s → Safe (limitsSetting fails i) x (fun _ s' => P s') s) (n : ℕ)
    (last : Option Err) (hs : P s) :
    Safe (limitsSetting fails i) (retryFrom x n last) (fun _ s' => P s') s := by
  induction n generalizing s last with
  | zero =>
    cases last with
    | none | some e => exact Safe.ret (fun s' hr hi => stable _ _ hr hi hs)
  | succ n ih =>
    refine Safe.bindAttempt (Safe.mono (fun r s₁ h₁ => ?_) (hx s hs))
    cases r with
    | ok u => exact Safe.ret (fun s' hr hi => stable _ _ hr hi h₁)
    | error e =>
      dsimp only
      split
      · exact Safe.ret (fun s' hr hi => stable _ _ hr hi h₁)
      · refine Safe.bindLift (Safe.mono (fun expired s₂ h₂ => ?_)
          (safe_limitsMild stable (.ask trivial) h₁))
        cases expired with
        | true => exact Safe.ret (fun s' hr hi => stable _ _ hr hi h₂)
        | false => exact ih (some e) h₂

theorem safe_explain (stable : limitsOwnership.Stable i P) {x : Go Unit} (text : String)
    (hx : Safe (limitsSetting fails i) x (fun _ s' => P s') s) :
    Safe (limitsSetting fails i) (Go.explain text x) (fun _ s' => P s') s := by
  refine Safe.bindAttempt (Safe.mono (fun r s₁ h₁ => ?_) hx)
  cases r with
  | ok u | error e => exact Safe.ret (fun s' hr hi => stable _ _ hr hi h₁)

theorem safe_setProjectStage {stage : Stage} {now : Instant}
    (h : s.Charged i (.rotation id) id role L) :
    Safe (limitsSetting fails i) (store (.setProjectStage id stage now))
      (fun r s' => s'.locks (.rotation id) = some i ∧
        (stage ≠ .ready ∨ r ≠ .ok () → s'.Charged i (.rotation id) id role L)) s := by
  refine Safe.ask (fun s₁ hr hi r s₂ ha => ?_)
  have h₁ := Site.Charged.stable _ _ hr hi h
  have hreply : Site.Replies fails i (.store (.setProjectStage id stage now)) s₁ r s₂ := ha
  obtain ⟨hkept, hworks, h₂⟩ := h₁.setProjectStage hi hreply
  refine ⟨hkept, hworks.guar hi h₁.owns, fun s₃ hr' hi' => ⟨?_, fun hnot => ?_⟩⟩
  · exact lockHeld_stable _ _ hr' hi' ((congrFun hworks.locks _).trans h₁.lock)
  · exact Site.Charged.stable _ _ hr' hi' (h₂ hnot)

/-- Nothing comes after the stage that makes a project ready. -/
def ReadyLast : List (Stage × Go Unit) → Prop
  | [] => True
  | x :: rest => (x.1 = .ready → rest = []) ∧ ReadyLast rest

theorem safe_runStages {project : Project} {stages : List (Stage × Go Unit)}
    (hlast : ReadyLast stages)
    (hstages : ∀ x ∈ stages, ∀ s, s.Charged i (.rotation project.id) project.id role L →
      Safe (limitsSetting fails i) x.2
        (fun _ s' => s'.Charged i (.rotation project.id) project.id role L) s)
    (skipping : Bool) (h : s.Charged i (.rotation project.id) project.id role L) :
    Safe (limitsSetting fails i) (runStages project skipping stages)
      (fun _ s' => s'.locks (.rotation project.id) = some i) s := by
  induction stages generalizing s skipping with
  | nil => exact Safe.ret (fun s' hr hi => lockHeld_stable _ _ hr hi h.lock)
  | cons x rest ih =>
    obtain ⟨name, run⟩ := x
    have hrest := fun y hy => hstages y (List.mem_cons_of_mem _ hy)
    cases skipping with
    | true => exact ih hlast.2 hrest _ h
    | false =>
      refine Safe.bindAction (Safe.mono (fun r s₁ h₁ => ?_) (safe_explain Site.Charged.stable _
        (safe_retryFrom Site.Charged.stable (hstages _ List.mem_cons_self) 3 none h)))
      cases r with
      | error e => exact Safe.ret (fun s' hr hi => lockHeld_stable _ _ hr hi h₁.lock)
      | ok u =>
        refine Safe.bindLift (Safe.mono (fun now s₂ h₂ => ?_)
          (safe_limitsMild Site.Charged.stable (.ask trivial) h₁))
        refine Safe.bindAction (Safe.mono (fun r s₃ h₃ => ?_) (safe_setProjectStage h₂))
        cases r with
        | error e => exact Safe.ret (fun s' hr hi => lockHeld_stable _ _ hr hi h₃.1)
        | ok u =>
          by_cases hready : name = .ready
          · obtain rfl := hlast.1 hready
            exact Safe.ret (fun s' hr hi => lockHeld_stable _ _ hr hi h₃.1)
          · exact ih hlast.2 hrest false (h₃.2 (Or.inl hready))

theorem safe_makeReady {project : Project}
    (h : s.Charged i (.rotation project.id) project.id project.roleName L) :
    Safe (limitsSetting fails i) (makeReady project L)
      (fun _ s' => s'.Charged i (.rotation project.id) project.id project.roleName L) s := by
  refine Safe.bindAction (Safe.mono (fun r s₁ h₁ => ?_)
    (safe_applyLimits aloof_lockHeld h h.lock))
  cases r with
  | error e => exact Safe.ret (fun s' hr hi => Site.Charged.stable _ _ hr hi h₁.1)
  | ok u =>
    refine safe_limitsMild Site.Charged.stable ?_ h₁.1
    refine Prog.Calls.bindAction (.ask ⟨not_false, not_false⟩) (fun x => ?_)
    dsimp only
    split
    · refine Prog.Calls.bindAction (Prog.Calls.lift (.ask trivial)) (fun now => ?_)
      refine Prog.Calls.bindAction (calls_attempt (.ask ⟨not_false, not_false⟩)) (fun r => ?_)
      cases r with
      | ok n => trivial
      | error e =>
        dsimp only
        split
        · trivial
        · trivial
    · trivial

/-- The thread works on a project that is not ready. -/
structure Site.Entered (i : ℕ) (id : String) (role : Text) (s : Site) : Prop where
  lock : s.locks (.rotation id) = some i
  standing : ∃ stage, s.db.standing id = some (role, stage) ∧ stage ≠ .ready

theorem Site.Entered.stable : limitsOwnership.Stable i (Site.Entered i id role) := by
  intro s s' hr _ h
  obtain ⟨stage, hstage, hnot⟩ := h.standing
  have howns : s.OwnsLimits i (.project id) := by
    refine ⟨_, hstage, ?_⟩
    rw [guardOf, if_neg hnot]
    exact h.lock
  obtain ⟨-, hsame⟩ := hr.2 (.project id) howns
  exact ⟨lockHeld_stable _ _ hr ‹_› h.lock, stage, hsame.standing.trans hstage, hnot⟩

/-- Having read the wanted limits, it is charged with them. -/
theorem safe_projectLimits (h : s.Entered i id role) :
    Safe (limitsSetting fails i) (store (.projectLimits id))
      (fun r s' => s'.Entered i id role ∧ ∀ L, r = .ok L →
        s'.Charged i (.rotation id) id role L) s := by
  refine Safe.ask (fun s₁ hr hi r s₂ ha => ?_)
  have h₁ := Site.Entered.stable _ _ hr hi h
  have hmild : Call.LimitsMild (.store (.projectLimits id)) := ⟨not_false, not_false⟩
  have hmild₂ := hmild.replies (i := i) ha
  have hkept := hmild₂.kept hi
  have h₂ := Site.Entered.stable _ _ hmild₂.free.rely hkept h₁
  refine ⟨hkept, hmild₂.free.guar, fun s₃ hr' hi' =>
    ⟨Site.Entered.stable _ _ hr' hi' h₂, fun L hL => Site.Charged.stable _ _ hr' hi' ?_⟩⟩
  obtain ⟨stage, hstage, hnot⟩ := h₂.standing
  have hrevision : s₂.db.revision id = some L.asRevision := by
    rcases ha with ⟨a, db, hrun, hr, rfl⟩ | ⟨e, he, -⟩
    · obtain rfl := Except.ok.inj (hr.symm.trans hL)
      obtain ⟨hread, rfl⟩ := StoreCall.tryRead_eq_ok.mp hrun
      unfold Database.projectLimits at hread
      split at hread
      · next l hfind =>
        cases hread
        show (Table.find ProjectLimits.projectID id s₁.db.limits).map _ = _
        rw [hfind]
        rfl
      · cases hread
    · cases he.symm.trans hL
  refine ⟨h₂.lock, ⟨stage, hstage, ?_⟩, _, hrevision, hkept.bounded _ _ hrevision, le_rfl,
    fun _ => rfl, Or.inl rfl⟩
  rw [guardOf, if_neg hnot]

/-- Reading the project. -/
theorem safe_project (hs : s.locks (.rotation id) = some i) :
    Safe (limitsSetting fails i) (store (.project id))
      (fun r s' => s'.locks (.rotation id) = some i ∧ ∀ p, r = .ok p → p.id = id ∧
        (p.stage ≠ .ready → s'.Entered i id p.roleName)) s := by
  refine Safe.ask (fun s₁ hr hi r s₂ ha => ?_)
  have hlock₁ := lockHeld_stable _ _ hr hi hs
  have hmild : Call.LimitsMild (.store (.project id)) := ⟨not_false, not_false⟩
  have hmild₂ := hmild.replies (i := i) ha
  have hlock₂ := lockHeld_stable _ _ hmild₂.free.rely (hmild₂.kept hi) hlock₁
  refine ⟨hmild₂.kept hi, hmild₂.free.guar, fun s₃ hr' hi' =>
    ⟨lockHeld_stable _ _ hr' hi' hlock₂, fun p hp => ?_⟩⟩
  have hfind : Table.find Project.id id s₂.db.projects = some p := by
    rcases ha with ⟨a, db, hrun, hr, rfl⟩ | ⟨e, he, -⟩
    · obtain rfl := Except.ok.inj (hr.symm.trans hp)
      obtain ⟨hread, rfl⟩ := StoreCall.tryRead_eq_ok.mp hrun
      unfold Database.project at hread
      split at hread
      · next p' hfind =>
        cases hread
        exact hfind
      · cases hread
    · cases he.symm.trans hp
  refine ⟨(Table.find_eq_some hfind).2, fun hnot => Site.Entered.stable _ _ hr' hi' ?_⟩
  refine ⟨hlock₂, p.stage, ?_, hnot⟩
  rw [Database.standing, hfind]
  rfl

/-- A ready project has no stage left. -/
theorem runStages_ready {project : Project} (h : project.stage = .ready) (x y z : Go Unit) :
    runStages project true [(.roleCreated, x), (.databaseCreated, y), (.ready, z)] =
      .ret (.ok ()) := by
  show runStages project (decide (project.stage ≠ .roleCreated)) _ = _
  rw [h]
  show runStages project (decide (project.stage ≠ .databaseCreated)) _ = _
  rw [h]
  rfl

theorem safe_provisionLocked (hs : s.locks (.rotation id) = some i) :
    Safe (limitsSetting fails i) (provisionLocked id)
      (fun _ s' => s'.locks (.rotation id) = some i) s := by
  refine Safe.bindAction (Safe.mono (fun r s₁ h₁ => ?_) (safe_project hs))
  obtain ⟨hlock, hproject⟩ := h₁
  cases r with
  | error e => exact Safe.ret (fun s' hr hi => lockHeld_stable _ _ hr hi hlock)
  | ok project =>
    obtain ⟨rfl, hentered⟩ := hproject project rfl
    dsimp only
    split
    · exact Safe.ret (fun s' hr hi => lockHeld_stable _ _ hr hi hlock)
    by_cases hready : project.stage = .ready
    · -- reads only
      refine safe_limitsMild lockHeld_stable ?_ hlock
      refine Prog.Calls.bindAction (.ask ⟨not_false, not_false⟩) (fun sealedValue => ?_)
      refine Prog.Calls.bindAction (calls_attempt (.ask trivial)) (fun opened => ?_)
      cases opened with
      | error e => trivial
      | ok password =>
        refine Prog.Calls.bindAction (.ask ⟨not_false, not_false⟩) (fun limits => ?_)
        rw [show decide (project.stage ≠ .identityPersisted) = true by rw [hready]; rfl,
          runStages_ready hready]
        trivial
    · refine Safe.bindAction (Safe.mono (fun r s₂ h₂ => ?_) (safe_limitsMild Site.Entered.stable
        (.ask ⟨not_false, not_false⟩) (hentered hready)))
      cases r with
      | error e => exact Safe.ret (fun s' hr hi => lockHeld_stable _ _ hr hi h₂.lock)
      | ok sealedValue =>
        refine Safe.bindAttempt (Safe.mono (fun r s₃ h₃ => ?_)
          (safe_limitsMild Site.Entered.stable (.ask trivial) h₂))
        cases r with
        | error e => exact Safe.ret (fun s' hr hi => lockHeld_stable _ _ hr hi h₃.lock)
        | ok password =>
          refine Safe.bindAction (Safe.mono (fun r s₄ h₄ => ?_) (safe_projectLimits h₃))
          cases r with
          | error e => exact Safe.ret (fun s' hr hi => lockHeld_stable _ _ hr hi h₄.1.lock)
          | ok limits =>
            refine safe_runStages ?_ ?_ _ (h₄.2 limits rfl)
            · exact ⟨by simp, by simp, by simp, trivial⟩
            · simp only [List.forall_mem_cons]
              refine ⟨fun s h => ?_, fun s h => ?_, fun s h => safe_makeReady h, by simp⟩
              · exact safe_limitsMild Site.Charged.stable
                  ((ensureRole_calls _ _ _).mono (fun _ _ hc => hc.1)) h
              · exact safe_limitsMild Site.Charged.stable
                  ((ensureDatabase_calls _ _).mono (fun _ _ hc => hc.1)) h

theorem sound_provisionListed (listed : Project) :
    limitsOwnership.discipline.Sound (limitsSystem fails) i
      (Prog.bind (provisionListed listed) (fun _ => .ret ())) s := by
  refine Safe.bind (Safe.mono (fun _ s' _ => Safe.ret (fun _ _ _ => trivial))
    (Safe.bind (Q := fun _ _ => True) ?_))
  refine Safe.mono (Q := fun _ _ => True) (fun r s' _ => ?_) ?_
  · cases r with
    | ok u => exact Safe.ret (fun _ _ _ => trivial)
    | error e =>
      refine Safe.bind (Safe.mono (fun _ s' _ => Safe.ret (fun _ _ _ => trivial))
        (safe_limitsMild (P := fun _ => True) (fun _ _ _ _ _ => trivial)
          (calls_ignore (.ask trivial)) trivial))
  · refine Safe.bindLift (Safe.mono (fun _ s₁ h₁ => ?_) safe_lockLimits)
    refine Safe.bindAttempt (Safe.mono (fun r s₂ h₂ => ?_) (safe_provisionLocked h₁))
    refine Safe.bindLift (Safe.mono (fun _ s₃ h₃ => ?_) (safe_unlockLimits h₂))
    exact Safe.ret (fun _ _ _ => trivial)

end

/-! ### Every run -/

theorem sound_limitsWork {fails : Faults} {i : ℕ} {s : Site} {p : Run Unit} (h : LimitsWork p) :
    limitsOwnership.discipline.Sound (limitsSystem fails) i p s := by
  cases h with
  | set id l seen now =>
    exact safe_limitsMild (P := fun _ => True) (fun _ _ _ _ _ => trivial)
      ((calls_ignore (setProjectLimits_calls id l seen now)).mono (fun _ _ hc => hc.1)) trivial
  | sync => exact sound_syncLimits
  | provision listed => exact sound_provisionListed listed

/-- The system keeps to the ownership of the limits. -/
theorem limits_kept (fails : Faults) :
    limitsOwnership.discipline.Kept (limitsSystem fails) where
  others hne hi hguar := limitsOwnership.others hne hi hguar
  outside hi ho := ⟨ho.2.kept hi, fun i => ho.2.rely ho.1 i⟩
  starts _ _ hp := sound_limitsWork hp
  restarts hi hr := ⟨hr.2.1.kept hi, fun _ p hp =>
    sound_limitsWork (hr.2.2 p (List.mem_of_getElem? hp))⟩

end Pgfy
