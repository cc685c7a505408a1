import Pgfy.Httpapi.Auth
import Pgfy.Postgres.Management

/-! # Frozen writes

    A request to freeze or resume writes changes the role in PostgreSQL and then
    the project's row, with nothing that keeps another request out and no way
    back once ending the sessions has failed. Requests that come one after the
    other, and whose sessions can be ended, leave the row and the role saying the
    same.
-/

namespace Pgfy

open Calendar Program

/-- Records an action that already committed; a failure to record is only logged. -/
def auditAction (action target requestID : String) : Run Unit := do
  let now ← clock
  let _ ← (store (.audit ⟨unix now, 1, action, target, requestID, ""⟩) : Run (Except Err Unit))
  pure ()

/-- Goes on with the project a request names. -/
def withProject (id : String) (next : Project → Run Unit) : Run Unit := do
  let found ← (store (.project id) : Run (Except Err Project))
  match found with
  | .error .projectNotFound => failure 404 "not_found"
  | .error _ => failure 503 "metadata_unavailable"
  | .ok p => next p

/-- When writes were frozen by a request that freezes; `0` resumes them. -/
def frozenSince (frozen : Bool) : Run ℤ := if frozen then unix <$> clock else pure 0

/-- The change itself. PostgreSQL is changed first; if recording that fails, it
    is reverted. -/
def changeWrites (p : Project) (frozen : Bool) (requestID : String) : Run Unit := do
  let applied ← (setWritesFrozen p.dbName p.roleName frozen : Run (Except Err Unit))
  match applied with
  | .error _ => failure 503 "postgres_unavailable"
  | .ok _ =>
    let at_ ← frozenSince frozen
    let saved ← (store (.setProjectFrozen p.id at_) : Run (Except Err Unit))
    match saved with
    | .error _ =>
      let _ ← (setWritesFrozen p.dbName p.roleName (!frozen) : Run (Except Err Unit))
      failure 503 "metadata_unavailable"
    | .ok _ =>
      auditAction (if frozen then "writes.freeze" else "writes.resume") p.id requestID
      respond 200

/-- Freezes or resumes application writes for one project. -/
def updateWrites (cfg : Config) (session : Option String) (csrf : Option Csrf) (id : String)
    (body : Option Bool) (requestID : String) : Run Unit :=
  authorize cfg session csrf false (fun _ => withProject id (fun p =>
    if p.stage ≠ .ready || p.failed then failure 409 "not_ready"
    else
      match body with
      | none => failure 400 "invalid_request"
      | some frozen =>
        if frozen = decide (p.frozenAt ≠ 0) then respond 200
        else changeWrites p frozen requestID))

/-! ### The row and the role -/

/-- New sessions of the role are read-only by default. -/
def Postgres.readOnly (role : Text) (pg : Postgres) : Bool :=
  (pg.role role).any (fun r => ("default_transaction_read_only", "on") ∈ r.state.settings)

theorem Postgres.readOnly_setReadOnly {role : Text} {on : Bool} {pg pg' : Postgres}
    (h : (PgCall.setReadOnly role on).run pg = .ok ((), pg')) : pg'.readOnly role = on := by
  simp only [PgCall.run, Postgres.alterRole] at h
  split at h
  · cases h
  · next r hrole =>
    cases h
    unfold Postgres.readOnly Postgres.role
    simp only
    rw [Table.find_modify]
    swap
    · exact fun _ hr => hr
    unfold Postgres.role at hrole
    rw [hrole]
    cases on with
    | true =>
      simp only [Option.map_some, Option.any_some, decide_eq_true_eq, if_true, setAll,
        List.foldl_cons, List.foldl_nil]
      exact Table.mem_upsert.mpr (Or.inl rfl)
    | false => simp

/-- The project's row and its role say the same. -/
def Site.Agrees (id : String) (s : Site) : Prop :=
  ∀ p, Table.find Project.id id s.db.projects = some p →
    (p.frozenAt ≠ 0 ↔ s.pg.readOnly p.roleName = true)

/-! ### Requests one after the other -/

/-- The site, and whether a request has failed to record its change. -/
structure Desk where
  site : Site
  reverting : Bool := false

/-- What is assumed of an answer: a statement on PostgreSQL that fails has no
    effect, sessions can be ended, a change that could not be recorded can be
    reverted, and the clock is past the second that stands for never. -/
def Desk.Smooth {β : Type} : Call β → β → Desk → Desk → Prop
  | .pg (.terminateSessions _ _), r, d, d' => r = .ok () ∧ d'.reverting = d.reverting
  | .pg _, r, d, d' =>
    (∀ e, r = .error e → d'.site.pg = d.site.pg ∧ d.reverting = false) ∧
      d'.reverting = d.reverting
  | .store (.setProjectFrozen _ _), r, _, d' => (∀ e, r = .error e → d'.reverting = true) ∧
      (r = .ok () → d'.reverting = false)
  | .now, r, d, d' => unix r ≠ 0 ∧ d'.reverting = d.reverting
  | _, _, d, d' => d'.reverting = d.reverting

def Desk.Replies (fails : Faults) (i : ℕ) : Answers Desk Call := fun _ d c r d' =>
  Site.Replies fails i c d.site r d'.site ∧ Desk.Smooth c r d d'

/-- What everything but the project's own requests may do. -/
structure Site.Elsewhere (id : String) (s s' : Site) : Prop where
  project : (Table.find Project.id id s'.db.projects).map (fun p => (p.roleName, p.frozenAt)) =
    (Table.find Project.id id s.db.projects).map (fun p => (p.roleName, p.frozenAt))
  role : ∀ role, s'.pg.readOnly role = s.pg.readOnly role

def Desk.Elsewhere (id : String) (d d' : Desk) : Prop :=
  d.site.Elsewhere id d'.site ∧ d'.reverting = d.reverting

/-- The sites between requests on a project that never overlap. -/
inductive OneByOne (fails : Faults) (id : String) : Site → Prop where
  | start {s} (agrees : s.Agrees id) : OneByOne fails id s
  | elsewhere {s s'} (run : OneByOne fails id s) (step : s.Elsewhere id s') :
      OneByOne fails id s'
  | request {s d} (i cfg session csrf body requestID) (run : OneByOne fails id s)
      (trace : Trace (Desk.Replies fails i) (Desk.Elsewhere id)
        (updateWrites cfg session csrf id body requestID) ⟨s, false⟩ (some ()) d) :
      OneByOne fails id d.site

/-! ### One request -/

/-- What a request knows of its project between its calls. -/
structure Desk.At (id : String) (role : Text) (recorded enforced reverting : Bool) (d : Desk) :
    Prop where
  row : (Table.find Project.id id d.site.db.projects).map
    (fun p => (p.roleName, decide (p.frozenAt ≠ 0))) = some (role, recorded)
  role : d.site.pg.readOnly role = enforced
  reverting : d.reverting = reverting

/-- Requests in their surroundings. -/
def deskSetting (fails : Faults) (i : ℕ) (id : String) : Setting Desk Call where
  answer := Desk.Replies fails i
  inv := fun _ => True
  rely := Desk.Elsewhere id
  guar := fun _ _ => True
  rely_refl _ := ⟨⟨rfl, fun _ => rfl⟩, rfl⟩
  rely_trans h h' := ⟨⟨h'.1.project.trans h.1.project,
    fun role => (h'.1.role role).trans (h.1.role role)⟩, h'.2.trans h.2⟩

section
variable {fails : Faults} {i : ℕ} {id : String} {role : Text}
  {recorded enforced reverting : Bool} {d d' : Desk}

theorem Desk.At.rely (h : d.At id role recorded enforced reverting)
    (hr : Desk.Elsewhere id d d') : d'.At id role recorded enforced reverting := by
  refine ⟨?_, (hr.1.role role).trans h.role, hr.2.trans h.reverting⟩
  have hproject := congrArg (Option.map (fun x : Text × ℤ => (x.1, decide (x.2 ≠ 0)))) hr.1.project
  simp only [Option.map_map] at hproject
  exact hproject.trans h.row

/-- If the row and the role say the same, they agree. -/
theorem Desk.At.agrees (h : d.At id role recorded recorded reverting) : d.site.Agrees id := by
  intro p hp
  have hrow := h.row
  rw [hp] at hrow
  simp only [Option.map_some, Option.some.injEq, Prod.mk.injEq] at hrow
  obtain ⟨hrole, hfrozen⟩ := hrow
  rw [hrole, h.role, ← hfrozen]
  simp

/-- A call that changes neither the projects nor PostgreSQL. -/
theorem Desk.At.call (h : d.At id role recorded enforced reverting)
    (hdb : d'.site.db.projects = d.site.db.projects) (hpg : d'.site.pg = d.site.pg)
    (hreverting : d'.reverting = d.reverting) : d'.At id role recorded enforced reverting :=
  ⟨hdb ▸ h.row, hpg ▸ h.role, hreverting.trans h.reverting⟩

/-- Ending sessions changes nothing that matters here. -/
theorem Desk.safe_terminateSessions {database : Text} {role' : Text}
    (h : d.At id role recorded enforced reverting) :
    Safe (deskSetting fails i id) (terminateSessions database role')
      (fun r d' => r = .ok () ∧ d'.At id role recorded enforced reverting) d := by
  refine Safe.ask (fun d₁ hr _ r d₂ ha => ⟨trivial, trivial, fun d₃ hr' _ => ?_⟩)
  obtain ⟨hreply, hok, hreverting⟩ := ha
  subst hok
  have hsite : d₂.site = d₁.site := by
    rcases hreply with ⟨a, pg, hrun, -, hs⟩ | ⟨e, he, -, -⟩
    · cases hrun
      exact hs
    · cases he
  exact ⟨rfl, ((h.rely hr).call (by rw [hsite]) (by rw [hsite]) hreverting).rely hr'⟩

/-- Freezing or resuming takes effect whole or not at all, and cannot fail where
    it reverts. -/
theorem Desk.safe_setWritesFrozen {database : Text} {on : Bool}
    (h : d.At id role recorded enforced reverting) :
    Safe (deskSetting fails i id) (setWritesFrozen database role on) (fun r d' =>
      (r = .ok () ∧ (validName database && validName role) = true ∧
        d'.At id role recorded on reverting) ∨
      (∃ e, r = .error e ∧ d'.At id role recorded enforced reverting ∧
        (reverting = true → (validName database && validName role) = false))) d := by
  cases hvalid : validName database && validName role with
  | false =>
    have heq : setWritesFrozen database role on =
        .ret (.error (.message "invalid project identity")) := by
      unfold setWritesFrozen Go.ensure
      rw [hvalid]
      rfl
    rw [heq]
    exact Safe.ret (fun d' hr _ => Or.inr ⟨_, rfl, h.rely hr, fun _ => rfl⟩)
  | true =>
    have heq : setWritesFrozen database role on =
        Action.bind (pg (.setReadOnly role on)) (fun _ => terminateSessions database role) := by
      unfold setWritesFrozen Go.ensure
      rw [hvalid]
      rfl
    rw [heq]
    refine Safe.bindAction (Safe.ask (fun d₁ hr _ r d₂ ha =>
      ⟨trivial, trivial, fun d₃ hr' _ => ?_⟩))
    obtain ⟨hreply, hsmooth, hreverting⟩ := ha
    have hat := h.rely hr
    cases r with
    | ok a =>
      -- the role has changed; its sessions are ended
      have hdone : d₂.At id role recorded on reverting := by
        rcases hreply with ⟨a', pg', hrun, -, hs⟩ | ⟨e, he, -⟩
        · refine ⟨?_, ?_, hreverting.trans hat.reverting⟩
          · rw [hs]
            exact hat.row
          · rw [hs]
            exact Postgres.readOnly_setReadOnly hrun
        · cases he
      exact Safe.mono (fun r d' hend => Or.inl ⟨hend.1, rfl, hend.2⟩)
        (Desk.safe_terminateSessions (hdone.rely hr'))
    | error e =>
      obtain ⟨hpg, hnot⟩ := hsmooth e rfl
      have hdb : d₂.site.db = d₁.site.db := by
        rcases hreply with ⟨a', pg', -, -, hs⟩ | ⟨e', -, -, hs⟩ <;> rw [hs]
      have hsame : d₂.At id role recorded enforced reverting :=
        hat.call (by rw [hdb]) hpg hreverting
      refine Safe.ret (fun d₄ hr'' _ => Or.inr ⟨e, rfl, (hsame.rely hr').rely hr'', ?_⟩)
      intro hrev
      rw [hat.reverting, hrev] at hnot
      cases hnot

/-- Responses change nothing. -/
theorem Desk.safe_respond {status : ℕ} {code : String}
    (h : d.At id role recorded enforced reverting) :
    Safe (deskSetting fails i id) (Prog.ask (.respond status code))
      (fun _ d' => d'.At id role recorded enforced reverting) d := by
  refine Safe.ask (fun d₁ hr _ r d₂ ha => ⟨trivial, trivial, fun d₃ hr' _ => ?_⟩)
  have hsite : d₂.site = d₁.site := ha.1
  exact ((h.rely hr).call (by rw [hsite]) (by rw [hsite]) ha.2).rely hr'

/-- Reading the clock changes nothing, and never reads the second of never. -/
theorem Desk.safe_clock (h : d.At id role recorded enforced reverting) :
    Safe (deskSetting fails i id) clock
      (fun now d' => unix now ≠ 0 ∧ d'.At id role recorded enforced reverting) d := by
  refine Safe.ask (fun d₁ hr _ r d₂ ha => ⟨trivial, trivial, fun d₃ hr' _ => ?_⟩)
  obtain ⟨⟨-, hsite⟩, hzero, hreverting⟩ := ha
  exact ⟨hzero, ((h.rely hr).call (by rw [hsite]) (by rw [hsite]) hreverting).rely hr'⟩

theorem Desk.safe_frozenSince {frozen : Bool} (h : d.At id role recorded enforced reverting) :
    Safe (deskSetting fails i id) (frozenSince frozen)
      (fun at_ d' => decide (at_ ≠ 0) = frozen ∧ d'.At id role recorded enforced reverting) d := by
  cases frozen with
  | true =>
    refine Safe.bind (Safe.mono (fun now d' hnow => ?_) (Desk.safe_clock h))
    exact Safe.ret (fun d'' hr _ => ⟨by simpa using hnow.1, hnow.2.rely hr⟩)
  | false => exact Safe.ret (fun d' hr _ => ⟨by simp, h.rely hr⟩)

/-- The change is recorded, or the request knows that it has to revert. -/
theorem Desk.safe_setProjectFrozen {frozen : Bool} {at_ : ℤ} (hat : decide (at_ ≠ 0) = frozen)
    (h : d.At id role recorded enforced false) :
    Safe (deskSetting fails i id) (store (.setProjectFrozen id at_)) (fun r d' =>
      (r = .ok () ∧ d'.At id role frozen enforced false) ∨
      (∃ e, r = .error e ∧ d'.At id role recorded enforced true)) d := by
  refine Safe.ask (fun d₁ hr _ r d₂ ha => ⟨trivial, trivial, fun d₃ hr' _ => ?_⟩)
  obtain ⟨hreply, herror, hok⟩ := ha
  have hbefore := h.rely hr
  rcases hreply with ⟨a, db, hrun, hanswer, hs⟩ | ⟨e, hanswer, -, hs⟩
  · have hanswer' : r = .ok () := hanswer
    refine Or.inl ⟨hanswer', Desk.At.rely ⟨?_, ?_, hok hanswer'⟩ hr'⟩
    · have hdb := Database.setProjectFrozen_ok (StoreCall.tryWrite_eq_ok.mp hrun)
      rw [hs, hdb]
      simp only [Database.modifyProject]
      rw [Table.find_modify]
      swap
      · exact fun _ hp => hp
      have hrow := hbefore.row
      cases hfind : Table.find Project.id id d₁.site.db.projects with
      | none =>
        rw [hfind] at hrow
        cases hrow
      | some p =>
        rw [hfind] at hrow
        simp only [Option.map_some, Option.some.injEq, Prod.mk.injEq] at hrow ⊢
        exact ⟨hrow.1, hat⟩
    · rw [hs]
      exact hbefore.role
  · refine Or.inr ⟨e, hanswer, Desk.At.rely ⟨?_, ?_, herror e hanswer⟩ hr'⟩
    · rw [hs]
      exact hbefore.row
    · rw [hs]
      exact hbefore.role

theorem Desk.safe_auditAction {action target requestID : String}
    (h : d.At id role recorded enforced reverting) :
    Safe (deskSetting fails i id) (auditAction action target requestID)
      (fun _ d' => d'.At id role recorded enforced reverting) d := by
  refine Safe.bind (Safe.mono (fun now d₁ h₁ => ?_) (Desk.safe_clock h))
  refine Safe.bind (Safe.ask (fun d₂ hr _ r d₃ ha => ⟨trivial, trivial, fun d₄ hr' _ => ?_⟩))
  obtain ⟨hreply, hreverting⟩ := ha
  have hat : d₃.At id role recorded enforced reverting := by
    refine (h₁.2.rely hr).call ?_ ?_ hreverting
    · rcases hreply with ⟨a, db, hrun, -, hs⟩ | ⟨e, -, -, hs⟩
      · cases hrun
        rw [hs]
      · rw [hs]
    · rcases hreply with ⟨a, db, -, -, hs⟩ | ⟨e, -, -, hs⟩ <;> rw [hs]
  exact Safe.ret (fun d₅ hr'' _ => (hat.rely hr').rely hr'')

/-- The change itself: whichever way it goes, row and role end up saying the same. -/
theorem Desk.safe_changeWrites {p : Project} {frozen : Bool} {requestID : String} (hid : p.id = id)
    (hchange : recorded = !frozen) (h : d.At id p.roleName recorded recorded false) :
    Safe (deskSetting fails i id) (changeWrites p frozen requestID)
      (fun _ d' => d'.site.Agrees id) d := by
  subst hid
  refine Safe.bind (Safe.mono (fun applied d₁ h₁ => ?_) (Desk.safe_setWritesFrozen h))
  rcases h₁ with ⟨rfl, hvalid, h₁⟩ | ⟨e, rfl, h₁, -⟩
  · refine Safe.bind (Safe.mono (fun at_ d₂ h₂ => ?_) (Desk.safe_frozenSince h₁))
    refine Safe.bind (Safe.mono (fun saved d₃ h₃ => ?_) (Desk.safe_setProjectFrozen h₂.1 h₂.2))
    rcases h₃ with ⟨rfl, h₃⟩ | ⟨e, rfl, h₃⟩
    · refine Safe.bind (Safe.mono (fun _ d₄ h₄ => ?_) (Desk.safe_auditAction h₃))
      exact Safe.mono (fun _ d₅ h₅ => h₅.agrees) (Desk.safe_respond h₄)
    · -- the revert goes through, and brings the role back to what is recorded
      refine Safe.bind (Safe.mono (fun reverted d₄ h₄ => ?_) (Desk.safe_setWritesFrozen h₃))
      rcases h₄ with ⟨-, -, h₄⟩ | ⟨e', -, -, hnot⟩
      · rw [hchange] at h₄
        exact Safe.mono (fun _ d₅ h₅ => h₅.agrees) (Desk.safe_respond h₄)
      · rw [hnot rfl] at hvalid
        cases hvalid
  · exact Safe.mono (fun _ d₂ h₂ => h₂.agrees) (Desk.safe_respond h₁)

/-! ### Up to the change -/

/-- What holds before a request has read its project. -/
def Desk.Before (id : String) (d : Desk) : Prop := d.site.Agrees id ∧ d.reverting = false

theorem Site.Agrees.elsewhere {s s' : Site} (h : s.Agrees id) (hr : s.Elsewhere id s') :
    s'.Agrees id := by
  intro p' hp'
  have hproject := hr.project
  rw [hp'] at hproject
  cases hfind : Table.find Project.id id s.db.projects with
  | none =>
    rw [hfind] at hproject
    cases hproject
  | some p =>
    rw [hfind] at hproject
    simp only [Option.map_some, Option.some.injEq, Prod.mk.injEq] at hproject
    obtain ⟨hrole, hfrozen⟩ := hproject
    rw [hrole, hfrozen, hr.role]
    exact h p hfind

theorem Desk.Before.rely (h : d.Before id) (hr : Desk.Elsewhere id d d') : d'.Before id :=
  ⟨h.1.elsewhere hr.1, hr.2.trans h.2⟩

/-- A call that leaves the site alone. -/
theorem Desk.safe_quiet {β : Type} {c : Call β}
    (hc : ∀ d r d', Desk.Replies fails i d c r d' → d'.site = d.site ∧ d'.reverting = d.reverting)
    (h : d.Before id) :
    Safe (deskSetting fails i id) (Prog.ask c) (fun _ d' => d'.Before id) d := by
  refine Safe.ask (fun d₁ hr _ r d₂ ha => ⟨trivial, trivial, fun d₃ hr' _ => ?_⟩)
  obtain ⟨hsite, hreverting⟩ := hc d₁ r d₂ ha
  have hbefore := h.rely hr
  exact Desk.Before.rely ⟨hsite ▸ hbefore.1, hreverting.trans hbefore.2⟩ hr'

theorem Desk.safe_failure {status : ℕ} {code : String} (h : d.Before id) :
    Safe (deskSetting fails i id) (Prog.ask (.respond status code))
      (fun _ d' => d'.site.Agrees id) d :=
  Safe.mono (fun _ _ h' => h'.1) (Desk.safe_quiet (fun _ _ _ ha => ⟨ha.1, ha.2⟩) h)

theorem Desk.safe_withProject {next : Project → Run Unit} (h : d.Before id)
    (hnext : ∀ p d, p.id = id →
      d.At id p.roleName (decide (p.frozenAt ≠ 0)) (decide (p.frozenAt ≠ 0)) false →
      Safe (deskSetting fails i id) (next p) (fun _ d' => d'.site.Agrees id) d) :
    Safe (deskSetting fails i id) (withProject id next) (fun _ d' => d'.site.Agrees id) d := by
  refine Safe.bind (Safe.ask (fun d₁ hr _ r d₂ ha => ⟨trivial, trivial, fun d₃ hr' _ => ?_⟩))
  obtain ⟨hreply, hreverting⟩ := ha
  obtain ⟨hagrees, hnot⟩ := h.rely hr
  rcases hreply with ⟨p, db, hrun, rfl, hs⟩ | ⟨e, rfl, -, hs⟩
  · obtain ⟨hread, rfl⟩ := StoreCall.tryRead_eq_ok.mp hrun
    have hfind : Table.find Project.id id d₁.site.db.projects = some p := by
      unfold Database.project at hread
      split at hread
      · next hfind =>
        cases hread
        exact hfind
      · cases hread
    have hat : d₂.At id p.roleName (decide (p.frozenAt ≠ 0)) (decide (p.frozenAt ≠ 0)) false := by
      refine ⟨?_, ?_, hreverting.trans hnot⟩
      · rw [hs, hfind]
        rfl
      · rw [hs]
        exact (Bool.eq_iff_iff.mpr ((hagrees p hfind).symm.trans decide_eq_true_iff.symm))
    exact hnext p d₃ (Table.find_eq_some hfind).2 (hat.rely hr')
  · have hbefore : d₃.Before id :=
      Desk.Before.rely ⟨by rw [hs]; exact hagrees, hreverting.trans hnot⟩ hr'
    cases e <;> exact Desk.safe_failure hbefore

/-- A request that finds row and role in agreement leaves them so. -/
theorem Desk.safe_updateWrites {cfg : Config} {session : Option String} {csrf : Option Csrf}
    {body : Option Bool} {requestID : String} (h : d.Before id) :
    Safe (deskSetting fails i id) (updateWrites cfg session csrf id body requestID)
      (fun _ d' => d'.site.Agrees id) d := by
  unfold updateWrites authorize
  cases tokenCookie session with
  | none => exact Desk.safe_failure h
  | some token =>
    have hclock : Safe (deskSetting fails i id) clock (fun _ d' => d'.Before id) d :=
      Desk.safe_quiet (fun _ _ _ ha => ⟨ha.1.2, ha.2.2⟩) h
    refine Safe.bind (Safe.mono (fun now d₁ h₁ => ?_) hclock)
    refine Safe.bind (Safe.mono (fun row d₂ h₂ => ?_) (Desk.safe_quiet (fun d r d' ha => ?_) h₁))
    · cases row with
      | error e => exact Desk.safe_failure h₂
      | ok found =>
        cases found with
        | none => exact Desk.safe_failure h₂
        | some _ =>
          dsimp only
          split
          · exact Desk.safe_failure h₂
          · refine Desk.safe_withProject h₂ (fun p d₃ hid hat => ?_)
            split
            · exact Safe.mono (fun _ _ h' => h'.agrees) (Desk.safe_respond hat)
            · split
              · exact Safe.mono (fun _ _ h' => h'.agrees) (Desk.safe_respond hat)
              · next frozen =>
                split
                · exact Safe.mono (fun _ _ h' => h'.agrees) (Desk.safe_respond hat)
                · next hne => exact Desk.safe_changeWrites hid (Bool.eq_not_of_ne (Ne.symm hne)) hat
    · obtain ⟨hreply, hreverting⟩ := ha
      refine ⟨?_, hreverting⟩
      rcases hreply with ⟨a, db, hrun, -, hs⟩ | ⟨e, -, -, hs⟩
      · cases hrun
        exact hs
      · exact hs

end

/-- In every sequence of requests to freeze or resume that never overlap, whose
    sessions can be ended, and in which a statement that fails has no effect and
    a revert succeeds, the row and the role say the same between requests. -/
theorem frozen_as_recorded {fails : Faults} {id : String} {s : Site} (h : OneByOne fails id s) :
    s.Agrees id := by
  induction h with
  | start agrees => exact agrees
  | elsewhere _ step ih => exact ih.elsewhere step
  | request i cfg session csrf body requestID _ trace ih =>
    have hsafe : Safe (deskSetting fails i id) (updateWrites cfg session csrf id body requestID)
        (fun _ d' => d'.site.Agrees id) ⟨_, false⟩ := Desk.safe_updateWrites ⟨ih, rfl⟩
    exact (Safe.trace (fun _ _ henv => henv) (fun _ _ _ _ => trivial) trace trivial hsafe).2 () rfl

/-! ### One project -/

def frozenName : Text := "app_0123456789ab".toList

def frozenConfig : Config := ⟨"home", .https, "g", "https://db.example.com"⟩

/-- A session token. -/
def frozenToken : String := "aaaaaaaaaaaaaaaaaaaaaaaaaaaaaaaaaaaaaaaaaaa"

/-- An installation with one ready project and someone signed in. -/
def frozenSite : Site where
  config := frozenConfig
  clock := ofUnix 100
  db := {
    projects := [⟨"p", "shop", frozenName, frozenName, "k", .ready, false, "", 1, 1, 0, 0⟩]
    administrator := some { email := "admin", passwordHash := ⟨"s", "pw"⟩, createdAt := 1 }
    sessions := [⟨⟨frozenToken⟩, frozenConfig.scope, 1000⟩] }
  pg := { roles := [⟨frozenName, "pw", ⟨true, false, false, false⟩, true, ⟨[], [], 10⟩⟩] }

theorem frozenSite_agrees : frozenSite.Agrees "p" := by
  intro p hp
  cases hp
  decide +kernel

/-- The request to freeze. -/
def freezeRequest : Run Unit :=
  updateWrites frozenConfig (some frozenToken) (some ⟨frozenToken, frozenConfig.scope⟩) "p"
    (some true) "r"

/-- A run of a program alone, its calls answered as the list says. -/
def playOut {α : Type} (i : ℕ) : List Reply → Run α → Site → Option (α × Site)
  | _, .ret a, s => some (a, s)
  | k :: ks, .call c next, s =>
    match s.exec k i c with
    | some (r, s') => playOut i ks (next r) s'
    | none => none
  | [], .call _ _, _ => none

theorem playOut_trace {α : Type} {i : ℕ} {env : Site → Site → Prop} {ks : List Reply}
    {p : Run α} {s s' : Site} {a : α} (h : playOut i ks p s = some (a, s')) :
    Trace (fun _ s c r s' => Site.Replies everyFault i c s r s') env p s (some a) s' := by
  induction p generalizing ks s with
  | ret b =>
    unfold playOut at h
    cases h
    exact .ret _ _
  | call c next ih =>
    cases ks with
    | nil => cases h
    | cons k ks =>
      rw [playOut] at h
      split at h
      · next r s₁ hexec => exact .call (Site.exec_replies hexec) (ih r h)
      · cases h

/-- The answer is one that a request can go on with. -/
def Call.wellAnswered {β : Type} : Call β → β → Bool
  | .pg _, r => r.toBool
  | .store (.setProjectFrozen _ _), r => r.toBool
  | .now, r => unix r ≠ 0
  | _, _ => true

/-- A run of a request alone in which every call is well answered. -/
def playWell {α : Type} (i : ℕ) : Run α → Site → Option (α × Site)
  | .ret a, s => some (a, s)
  | .call c next, s =>
    match s.exec .plain i c with
    | some (r, s') => if c.wellAnswered r then playWell i (next r) s' else none
    | none => none

theorem Desk.smooth_of_wellAnswered {β : Type} {c : Call β} {r : β} {s s' : Site}
    (h : c.wellAnswered r = true) : Desk.Smooth c r ⟨s, false⟩ ⟨s', false⟩ := by
  cases c with
  | pg q =>
    cases r with
    | error e => cases h
    | ok a =>
      cases q with
      | terminateSessions database role => exact ⟨rfl, rfl⟩
      | _ => exact ⟨fun e he => (by cases he), rfl⟩
  | store q =>
    cases q with
    | setProjectFrozen id at_ =>
      cases r with
      | error e => cases h
      | ok a => exact ⟨fun e he => (by cases he), fun _ => rfl⟩
    | _ => rfl
  | now => exact ⟨by simpa [Call.wellAnswered] using h, rfl⟩
  | _ => rfl

theorem playWell_trace {α : Type} {i : ℕ} {id : String} {p : Run α} {s s' : Site} {a : α}
    (h : playWell i p s = some (a, s')) :
    Trace (Desk.Replies everyFault i) (Desk.Elsewhere id) p ⟨s, false⟩ (some a) ⟨s', false⟩ := by
  induction p generalizing s with
  | ret b =>
    cases h
    exact .ret _ _
  | call c next ih =>
    rw [playWell] at h
    split at h
    · next r s₁ hexec =>
      split at h
      · next hwell =>
        exact .call ⟨Site.exec_replies hexec, Desk.smooth_of_wellAnswered hwell⟩ (ih r h)
      · cases h
    · cases h

/-- A freeze that goes through. -/
theorem frozen_as_recorded_once :
    ∃ s, OneByOne everyFault "p" s ∧ s.pg.readOnly frozenName = true ∧ s.Agrees "p" := by
  have hplayed : (playWell 0 freezeRequest frozenSite).map
      (fun x => x.2.pg.readOnly frozenName) = some true := by decide +kernel
  obtain ⟨⟨_, s⟩, hplay, hread⟩ := Option.map_eq_some_iff.mp hplayed
  have hrun : OneByOne everyFault "p" s :=
    .request 0 frozenConfig _ _ _ _ (.start frozenSite_agrees) (playWell_trace hplay)
  exact ⟨s, hrun, hread, frozen_as_recorded hrun⟩

/-- One request alone in which ending the sessions fails: the role is read-only
    and the project is not recorded as frozen. -/
theorem frozen_unrecorded :
    frozenSite.Agrees "p" ∧ ∃ s, Trace (fun _ s c r s' => Site.Replies everyFault 0 c s r s')
      (fun _ _ => False) freezeRequest frozenSite (some ()) s ∧
      (∃ p, Table.find Project.id "p" s.db.projects = some p ∧ p.stage = .ready ∧
        p.frozenAt = 0 ∧ s.pg.readOnly p.roleName = true) ∧ ¬ s.Agrees "p" := by
  have hplayed : (playOut 0 [.plain, .plain, .plain, .plain, .fail, .plain] freezeRequest
      frozenSite).map (fun x => (Table.find Project.id "p" x.2.db.projects).map (fun p =>
        (p.stage, p.frozenAt, x.2.pg.readOnly p.roleName))) =
      some (some (.ready, 0, true)) := by decide +kernel
  obtain ⟨⟨_, s⟩, hplay, hrow⟩ := Option.map_eq_some_iff.mp hplayed
  obtain ⟨p, hfind, hp⟩ := Option.map_eq_some_iff.mp hrow
  simp only [Prod.mk.injEq] at hp
  obtain ⟨hstage, hzero, hrole⟩ := hp
  refine ⟨frozenSite_agrees, s, playOut_trace hplay, ⟨p, hfind, hstage, hzero, hrole⟩, ?_⟩
  intro hagrees
  exact (hagrees p hfind).mpr hrole hzero

end Pgfy
