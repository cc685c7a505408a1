import Pgfy.SignIn.Codes

/-! # Where sessions come from

    A session from a password alone is possible only while no factor is
    enrolled. The factor is enrolled either with a reset, which ends every
    session, or in the HTTPS mode, in which no session of the current scope
    came from a password alone. So once there is a factor, every session was
    opened by the statement that verified a code.
-/

namespace Pgfy

open Calendar Program

/-! ### Opening a session -/

/-- The secret of the administrator's factor. -/
def Database.factorSecret (db : Database) : Option (Sealed TotpSecret) :=
  db.administrator.bind Administrator.totpSecretSealed

/-- The statement verified a code against a secret that was the administrator's
    factor, or became it. -/
def Signed.Verified (mac : Mac) (x : Signed) : Prop :=
  ∃ secret step code, x.accepted = some (secret, step) ∧
    totpCode mac secret.plain step = (Text.trimSpace code).filter (· ≠ ' ') ∧
    (x.before.factorSecret = some secret ∨ x.after.factorSecret = some secret)

/-- The session a committed statement inserted. -/
def Signed.opened : Signed → Option SessionRow
  | ⟨_, .setup _ _ _ hash scope now, _, _, _, _⟩ => some (Database.newSession hash scope now)
  | ⟨_, .addSession hash scope _ now, _, _, _, _⟩ => some (Database.newSession hash scope now)
  | ⟨_, .confirmEnrolment _ hash scope _ now _, .ok _, _, _, _⟩ =>
    some (Database.newSession hash scope now)
  | ⟨_, .confirmPending _ hash scope now _, .ok _, _, _, _⟩ =>
    some (Database.newSession hash scope now)
  | _ => none

/-- The session was opened by a statement of the log that verified a code, and
    has been there ever since. -/
def OpenedByCode (mac : Mac) (log : List Signed) (row : SessionRow) : Prop :=
  ∃ later x earlier, log = later ++ x :: earlier ∧ x.opened = some row ∧
    (∀ y ∈ x :: later, row ∈ y.after.sessions) ∧ x.Verified mac

theorem OpenedByCode.cons {mac : Mac} {log : List Signed} {row : SessionRow} {y : Signed}
    (h : OpenedByCode mac log row) (hy : row ∈ y.after.sessions) :
    OpenedByCode mac (y :: log) row := by
  obtain ⟨later, x, earlier, rfl, hopened, hkept, hv⟩ := h
  refine ⟨y :: later, x, earlier, rfl, hopened, fun z hz => ?_, hv⟩
  rcases List.mem_cons.mp hz with rfl | hz
  · exact hkept z List.mem_cons_self
  rcases List.mem_cons.mp hz with rfl | hz
  · exact hy
  · exact hkept z (List.mem_cons_of_mem _ hz)

theorem OpenedByCode.new {mac : Mac} {x : Signed} {log : List Signed} {row : SessionRow}
    (hopened : x.opened = some row) (hrow : row ∈ x.after.sessions) (hv : x.Verified mac) :
    OpenedByCode mac (x :: log) row := by
  refine ⟨[], x, log, rfl, hopened, fun y hy => ?_, hv⟩
  obtain rfl := List.mem_singleton.mp hy
  exact hrow

/-- The token is an enrolment for an administrator without a factor. -/
def AuthToken.Upgrades (t : AuthToken) (scope : String) : Prop :=
  ∃ v email binding, t.payload = .enrolment v ∧ v.plain.kind = .upgrade email binding ∧
    v.plain.scope = scope

/-- What a committed statement means for the sessions: they can only become
    fewer, or one is opened by a password alone, or by a code. -/
inductive SessionChange (mac : Mac) (cfg : Config) (x : Signed) : Prop
  | kept (hrows : ∀ r ∈ x.after.sessions, r ∈ x.before.sessions)
      (hnone : x.after.administrator = none → x.before.administrator = none)
      (hfactor : x.after.factorSecret = x.before.factorSecret)
  | password (hmode : cfg.mode = .tunnel)
      (hrows : ∀ r ∈ x.after.sessions, r ∈ x.before.sessions ∨ r.scope = cfg.scope)
      (hsome : x.after.administrator ≠ none) (hbefore : x.before.factorSecret = none)
      (hafter : x.after.factorSecret = none)
  | code (row : SessionRow) (hopened : x.opened = some row) (hscope : row.scope = cfg.scope)
      (hrow : row ∈ x.after.sessions) (hv : x.Verified mac)
      (hsome : x.after.administrator ≠ none)
      (hkept : ∀ r ∈ x.after.sessions, r = row ∨ (r ∈ x.before.sessions ∧ r.scope = cfg.scope ∧
        (x.before.factorSecret ≠ none ∨ x.before.administrator = none ∨
          ∃ t ∈ x.before.authTokens, t.Upgrades "" ∨ t.Upgrades cfg.scope)))

section
variable {mac : Mac} {cfg : Config} {x : Signed}

/-- A statement that leaves the sessions and the administrator as they are. -/
theorem SessionChange.same (hsessions : x.after.sessions = x.before.sessions)
    (hadmin : x.after.administrator = x.before.administrator) : SessionChange mac cfg x :=
  .kept (fun _ hr => hsessions ▸ hr) (fun h => hadmin ▸ h)
    (congrArg (Option.bind · Administrator.totpSecretSealed) hadmin)

theorem Database.mem_opened {db : Database} {scope : String} {now : Instant} {hash : Digest String}
    {r : SessionRow}
    (h : r ∈ db.keptSessions scope now ++ [Database.newSession hash scope now]) :
    r = Database.newSession hash scope now ∨ (r ∈ db.sessions ∧ r.scope = scope) := by
  rcases List.mem_append.mp h with h | h
  · obtain ⟨hmem, -, hscope⟩ := Database.mem_keptSessions.mp h
    exact Or.inr ⟨hmem, hscope⟩
  · exact Or.inl (List.mem_singleton.mp h)

/-- A session was there before, or has just been opened. -/
theorem Effect.session_row (h : Effect mac cfg x) {r : SessionRow} (hr : r ∈ x.after.sessions) :
    r ∈ x.before.sessions ∨ x.opened = some r := by
  cases h with
  | quiet _ _ hsessions => exact Or.inl (hsessions ▸ hr)
  | logout token => exact Or.inl (List.mem_filter.mp hr).1
  | setupToken _ _ _ h | setupBegun _ _ _ _ _ _ _ _ _ _ h | upgradeBegun _ _ _ _ _ _ h
  | resetToken _ _ _ h | resetBegun _ _ _ _ _ _ _ _ h | pendingBegun _ _ _ h =>
    exact Or.inl (h.sessions ▸ hr)
  | setup _ _ _ _ _ _ _ tokens _ hafter | password _ _ _ _ _ _ _ _ hafter =>
    subst hafter
    exact (Database.mem_opened hr).symm.imp And.left (fun h => congrArg some h.symm)
  | code _ _ _ _ _ _ _ _ _ _ _ _ _ h =>
    cases h with
    | wrong secret _ _ =>
      rw [Database.countFailure_same] at hr
      exact Or.inl hr
    | accepted secret _ _ step _ _ =>
      exact (Database.mem_opened hr).symm.imp And.left (fun h => congrArg some h.symm)
    | _ => exact Or.inl hr
  | enrol _ _ _ _ _ _ _ _ _ _ _ h =>
    cases h with
    | refused => exact Or.inl hr
    | reset => exact Or.inr (congrArg some (List.mem_singleton.mp hr).symm)
    | _ => exact (Database.mem_opened hr).symm.imp And.left (fun h => congrArg some h.symm)

end

/-! ### The invariant -/

theorem AuthToken.Upgrades.of_later {t t' : AuthToken} {scope : String} (hl : t.Later t')
    (h : t'.Upgrades scope) : t.Upgrades scope := by
  obtain ⟨v, email, binding, hp, hk, hs⟩ := h
  exact ⟨v, email, binding, hl.payload ▸ hp, hk, hs⟩

end Pgfy
