import Pgfy.SignIn.Lineage

/-! # Showing an enrolment again

    A page that is reloaded shows the key of the enrolment under way again. It
    asks first whether a confirmation could still succeed, by a read-only form
    of the checks a confirmation makes. The two are compared here, in every
    state a run of signing in can reach.
-/

namespace Pgfy

open Calendar Program

/-! ### One request on its own -/

def Call.response {β : Type} : Call β → Option (ℕ × String)
  | .respond status code => some (status, code)
  | _ => none

/-- Every call is answered as it should be; a token that is drawn is this one. -/
def Call.reply (token : String) {β : Type} : Call β → Reply
  | .token => .text token
  | _ => .plain

/-- The response to a request while nothing else happens. -/
def responseTo (token : String) : Run Unit → Site → Option (ℕ × String)
  | .ret _, _ => none
  | .call c next, s =>
    match c.response with
    | some response => some response
    | none =>
      match s.exec (c.reply token) 0 c with
      | some (a, s') => responseTo token (next a) s'
      | none => none

/-- The key of the cookie's enrolment is shown. -/
def Site.Shows (s : Site) (enrol : String) : Prop :=
  responseTo "" (currentEnrolment (some enrol)) s = some (200, "")

/-- The code confirms the cookie's enrolment, and a session with a new token is
    opened. -/
def Site.Confirms (mac : Mac) (s : Site) (enrol requestID : String) (code : Text)
    (session : String) : Prop :=
  responseTo session (confirmEnrolment mac s.config (some enrol) requestID (some code)) s =
    some (200, "")

section
variable {α : Type} (token : String) (s : Site)

theorem responseTo_failure (status : ℕ) (code : String) :
    responseTo token (failure status code) s = some (status, code) := rfl

theorem responseTo_respond (status : ℕ) : responseTo token (respond status) s = some (status, "") :=
  rfl

theorem responseTo_clock (f : Instant → Run Unit) :
    responseTo token (clock >>= f) s = responseTo token (f s.clock) s := rfl

theorem responseTo_token (f : String → Run Unit) :
    responseTo token (randomToken >>= f) s = responseTo token (f token) s := rfl

theorem responseTo_allow (f : Bool → Run Unit) :
    responseTo token ((Prog.ask .allow : Run Bool) >>= f) s = responseTo token (f true) s := rfl

/-- A statement that is committed. -/
theorem responseTo_ok {q : AuthCall α} {a : α} {db : Database} (h : q.run s.db = .ok (a, db))
    (f : Except Err α → Run Unit) : responseTo token ((auth q : Run (Except Err α)) >>= f) s =
      responseTo token (f (.ok a)) { s with db := db } := by
  show responseTo token (f (answered s.db (q.run s.db)).1)
    { s with db := (answered s.db (q.run s.db)).2 } = _
  rw [h]
  rfl

/-- A statement that fails. -/
theorem responseTo_error {q : AuthCall α} {e : Err} (h : q.run s.db = .error e)
    (f : Except Err α → Run Unit) : responseTo token ((auth q : Run (Except Err α)) >>= f) s =
      responseTo token (f (.error e)) s := by
  show responseTo token (f (answered s.db (q.run s.db)).1)
    { s with db := (answered s.db (q.run s.db)).2 } = _
  rw [h]
  rfl

end

/-! ### What the two look at -/

/-- The enrolment under the cookie, while it lives. -/
structure Site.Live (s : Site) (enrol : String) (t : AuthToken) (v : Enrolment) : Prop where
  cookie : enrol.utf8ByteSize = 43
  found : Table.find AuthToken.tokenHash ⟨enrol⟩ s.db.authTokens = some t
  usable : t.Usable .enrol s.clock
  payload : t.payload = .enrolment ⟨.enrolment ⟨enrol⟩, v⟩

/-- An enrolment of this kind could still apply. -/
def Database.Applies (db : Database) (t : AuthToken) : EnrolmentKind → Prop
  | .setup _ _ => db.administrator = none
  | .upgrade _ _ => ∃ a, db.administrator = some a ∧ a.totpSecretSealed = none
  | .reset _ => db.administrator ≠ none ∧ t.parentID = some db.newestReset

/-- A confirmation would apply an enrolment of this kind. -/
def Database.Accepts (db : Database) (t : AuthToken) : EnrolmentKind → Prop
  | .setup _ _ => db.parentPurpose t = some .setup ∧ db.administrator = none
  | .upgrade _ binding => ∃ a, db.administrator = some a ∧ binding = ⟨a.passwordHash⟩ ∧
      a.totpSecretSealed = none
  | .reset _ => db.parentPurpose t = some .reset ∧ db.administrator ≠ none ∧
      t.parentID = some db.newestReset

theorem tokenCookie_some {value : String} (h : value.utf8ByteSize = 43) :
    tokenCookie (some value) = some value := by
  simp [tokenCookie, h]

theorem tokenCookie_none {value : String} (h : value.utf8ByteSize ≠ 43) :
    tokenCookie (some value) = none := by
  simp [tokenCookie, h]

section
variable {s : Site} {enrol : String}

/-- Without a live enrolment under the cookie nothing is shown. -/
theorem not_shows (h : ∀ t v, ¬ s.Live enrol t v) : ¬ s.Shows enrol := by
  unfold Site.Shows currentEnrolment
  by_cases hcookie : enrol.utf8ByteSize = 43
  · rw [tokenCookie_some hcookie]
    simp only
    rw [responseTo_clock]
    cases hrun : s.db.enrolmentPayload ⟨enrol⟩ s.clock with
    | error e =>
      have hcall : (AuthCall.enrolmentPayload ⟨enrol⟩ s.clock).run s.db = .error e := by
        rw [AuthCall.run, hrun]
        rfl
      rw [responseTo_error _ _ hcall]
      simp [responseTo_failure]
    | ok payload =>
      have hcall : (AuthCall.enrolmentPayload ⟨enrol⟩ s.clock).run s.db =
          .ok (payload, s.db) := by
        rw [AuthCall.run, hrun]
        rfl
      rw [responseTo_ok _ _ hcall]
      unfold Database.enrolmentPayload at hrun
      split at hrun
      · next t hfound =>
        split at hrun
        · next husable =>
          cases hrun
          cases hpayload : t.payload with
          | enrolment sealed =>
            simp only
            split
            · simp [responseTo_failure]
            · next hcontext =>
              obtain ⟨context, v⟩ := sealed
              obtain rfl : context = .enrolment ⟨enrol⟩ := not_not.mp hcontext
              exact absurd ⟨hcookie, hfound, husable, hpayload⟩ (h t v)
          | _ => simp [responseTo_failure]
        · cases hrun
      · cases hrun
  · rw [tokenCookie_none hcookie]
    simp [responseTo_failure]

/-- What `staleUpgrade` finds in a database. -/
def Database.staleUpgrade (db : Database) : EnrolmentKind → Bool
  | .upgrade _ _ => !(db.administrator.any (·.totpSecretSealed.isNone))
  | _ => false

theorem responseTo_staleUpgrade (token : String) (s : Site) (kind : EnrolmentKind)
    (f : Bool → Run Unit) : responseTo token (staleUpgrade kind >>= f) s =
      responseTo token (f (s.db.staleUpgrade kind)) s := by
  cases kind with
  | upgrade email binding =>
    cases hadmin : s.db.administrator with
    | none =>
      have hrun : AuthCall.factor.run s.db = .error .driver := by
        simp [AuthCall.run, Database.factor, hadmin, Except.map]
      refine (responseTo_error token s hrun _).trans ?_
      simp only [Database.staleUpgrade, hadmin]
      rfl
    | some a =>
      have hrun : AuthCall.factor.run s.db =
          .ok ((a.totpSecretSealed.isSome, a.passwordHash), s.db) := by
        simp [AuthCall.run, Database.factor, hadmin, Except.map]
      refine (responseTo_ok token s hrun _).trans ?_
      simp only [Database.staleUpgrade, hadmin, Option.any_some]
      cases a.totpSecretSealed <;> rfl
  | _ => rfl

theorem applies_iff (db : Database) (t : AuthToken) (enrol : String)
    (h : Table.find AuthToken.tokenHash ⟨enrol⟩ db.authTokens = some t) (kind : EnrolmentKind) :
    db.Applies t kind ↔ db.staleUpgrade kind = false ∧ db.enrolmentUsable ⟨enrol⟩ kind = true := by
  unfold Database.enrolmentUsable
  rw [h]
  cases kind with
  | setup email passwordHash => simp [Database.Applies, Database.staleUpgrade]
  | reset passwordHash =>
    simp [Database.Applies, Database.staleUpgrade, Option.isSome_iff_ne_none]
  | upgrade email binding =>
    cases hadmin : db.administrator <;>
      simp [Database.Applies, Database.staleUpgrade, hadmin]

theorem Site.Live.shows_iff {t : AuthToken} {v : Enrolment} (h : s.Live enrol t v) :
    s.Shows enrol ↔ s.db.Applies t v.kind := by
  have hpayload : (AuthCall.enrolmentPayload ⟨enrol⟩ s.clock).run s.db =
      .ok (.enrolment ⟨.enrolment ⟨enrol⟩, v⟩, s.db) := by
    simp [AuthCall.run, Database.enrolmentPayload, h.found, h.usable, h.payload, Except.map]
  have husable : (AuthCall.enrolmentUsable ⟨enrol⟩ v.kind).run s.db =
      .ok (s.db.enrolmentUsable ⟨enrol⟩ v.kind, s.db) := rfl
  rw [applies_iff s.db t enrol h.found]
  unfold Site.Shows currentEnrolment
  rw [tokenCookie_some h.cookie]
  simp only
  rw [responseTo_clock, responseTo_ok _ _ hpayload]
  simp only [ne_eq, not_true_eq_false, if_false]
  rw [responseTo_staleUpgrade]
  cases s.db.staleUpgrade v.kind with
  | true => simp [responseTo_failure]
  | false =>
    simp only [Bool.false_eq_true, if_false]
    rw [responseTo_ok _ _ husable]
    cases s.db.enrolmentUsable ⟨enrol⟩ v.kind <;> simp [responseTo_failure, responseTo_respond]

/-! ### Confirming -/

theorem parentPurpose_spent (hash : Digest String) (db : Database) (t : AuthToken) :
    (db.spent hash).parentPurpose t.tried = db.parentPurpose t := by
  unfold Database.parentPurpose Database.spent Table.modify AuthToken.tried
  cases t.parentID with
  | none => rfl
  | some id =>
    simp only [Option.bind_some]
    rw [List.find?_map, Option.map_map]
    have hfind : ((fun p : AuthToken => decide (p.id = id ∧ p.consumedAt.isSome = true)) ∘ fun t =>
        if t.tokenHash = hash then { t with attempts := t.attempts + 1 } else t) =
        fun p => decide (p.id = id ∧ p.consumedAt.isSome = true) := by
      funext p
      by_cases hp : p.tokenHash = hash <;> simp [hp]
    rw [hfind]
    congr 1
    funext p
    by_cases hp : p.tokenHash = hash <;> simp [hp]

theorem accepts_spent (hash : Digest String) (db : Database) (t : AuthToken)
    (kind : EnrolmentKind) :
    (db.spent hash).Accepts t.tried kind ↔ db.Accepts t kind := by
  cases kind <;>
    simp only [Database.Accepts, parentPurpose_spent, Database.newestReset_spent] <;> rfl

/-- An enrolment is applied exactly if it is accepted; there is an administrator
    then, and no new session. -/
theorem applyEnrolment_done {db : Database} {t : AuthToken} {c : ConfirmedEnrolment}
    (now : Instant) (hm : db.maintenance = false) :
    (db.Accepts t c.enrolment.kind → ∃ db', db.applyEnrolment t c now = .done db' ∧
      db'.administrator ≠ none ∧ ∀ r ∈ db'.sessions, r ∈ db.sessions) ∧
    (¬ db.Accepts t c.enrolment.kind → db.applyEnrolment t c now = .stale) := by
  unfold Database.applyEnrolment
  cases c.enrolment.kind with
  | setup email passwordHash =>
    constructor
    · rintro ⟨hparent, hnone⟩
      simp only [hparent, hnone]
      exact ⟨_, rfl, by simp, fun r hr => hr⟩
    · intro h
      have hstale : db.parentPurpose t ≠ some .setup ∨ db.administrator.isSome = true := by
        by_cases hparent : db.parentPurpose t = some .setup
        · exact Or.inr (Option.isSome_iff_ne_none.mpr (fun hnone => h ⟨hparent, hnone⟩))
        · exact Or.inl hparent
      simp only [if_pos hstale]
  | upgrade email binding =>
    cases hadmin : db.administrator with
    | none => simp [Database.Accepts, hadmin]
    | some a =>
      by_cases hbinding : binding = ⟨a.passwordHash⟩
      · cases hfactor : a.totpSecretSealed with
        | none | some secret => simp [Database.Accepts, hadmin, hbinding, hfactor]
      · simp [Database.Accepts, hadmin, hbinding, Ne.symm hbinding]
  | reset passwordHash =>
    cases hparent : t.parentID with
    | none => simp [Database.Accepts, hparent]
    | some parent =>
      by_cases hpurpose : db.parentPurpose t = some .reset
      · cases hadmin : db.administrator with
        | none => simp [Database.Accepts, hparent, hadmin]
        | some a =>
          by_cases hnewest : db.newestReset = parent
          · simp [Database.Accepts, hparent, hadmin, hpurpose, hnewest, hm,
              Database.setCredentials, Database.endSteps, Database.consumeResets,
              Database.deleteTokens]
          · simp [Database.Accepts, hparent, hadmin, hpurpose, hnewest, Ne.symm hnewest]
      · simp [Database.Accepts, hparent, hpurpose]

theorem finishEnrolment_succeeds {db : Database} {session : Digest String}
    (hadmin : db.administrator ≠ none) (hfresh : ∀ r ∈ db.sessions, r.tokenHash ≠ session)
    (t : AuthToken) (kind : EnrolmentKind) (scope requestID : String) (now : Instant) :
    ∃ email db', db.finishEnrolment t kind session scope requestID now = .ok (.ok email, db') := by
  obtain ⟨a, ha⟩ := Option.ne_none_iff_exists'.mp hadmin
  have hnew : ¬ (db.keptSessions scope now).any (·.tokenHash = session) = true := by
    rw [List.any_eq_true]
    rintro ⟨r, hr, hsame⟩
    exact hfresh r (Database.mem_keptSessions.mp hr).1 (of_decide_eq_true hsame)
  -- neither the audit row nor the notice touches sessions or the administrator
  have hadd : ∀ db₁ : Database, db₁.sessions = db.sessions → db₁.administrator = some a →
      db₁.addSession session scope now = .ok { db₁ with
        sessions := db₁.keptSessions scope now ++ [Database.newSession session scope now] } := by
    intro db₁ hsessions hadmin₁
    have hkept : db₁.keptSessions scope now = db.keptSessions scope now := by
      rw [Database.keptSessions, Database.keptSessions, hsessions]
    unfold Database.addSession
    rw [hkept, if_neg hnew, hadmin₁]
    rfl
  have htold := hadd ({ db with
    audit := db.audit ++ [Database.enrolmentAudit kind requestID now] }.enrolmentEvent kind now)
    rfl ha
  have hadmin₁ : ({ db with
      audit := db.audit ++ [Database.enrolmentAudit kind requestID now] }.enrolmentEvent kind
      now).administrator = some a := ha
  unfold Database.finishEnrolment
  simp only [htold, hadmin₁]
  exact ⟨_, _, rfl⟩

/-- A confirmation with a correct code, in a state without maintenance and with
    a token for the session that is new. -/
structure Site.Tries (mac : Mac) (s : Site) (enrol : String) (code : Text) (session : String) :
    Prop where
  running : s.db.maintenance = false
  fresh : ∀ r ∈ s.db.sessions, r.tokenHash ≠ ⟨session⟩
  correct : ∀ t v, s.Live enrol t v → ∃ step, verifyTOTP mac v.secret code s.clock 0 = .valid step

variable {mac : Mac} {code : Text} {session requestID : String}

/-- The code is accepted if the statement is committed with an email. -/
theorem confirms_iff_run (hcookie : enrol.utf8ByteSize = 43) :
    s.Confirms mac enrol requestID code session ↔ ∃ email db',
      s.db.confirmEnrolment ⟨enrol⟩ ⟨session⟩ s.config.scope requestID s.clock
        (verifyEnrolment mac ⟨enrol⟩ code s.clock) = .ok (.ok email, db') := by
  unfold Site.Confirms confirmEnrolment
  rw [tokenCookie_some hcookie]
  simp only
  rw [responseTo_allow]
  simp only [if_true]
  rw [responseTo_clock, responseTo_token]
  cases hrun : s.db.confirmEnrolment ⟨enrol⟩ ⟨session⟩ s.config.scope requestID s.clock
      (verifyEnrolment mac ⟨enrol⟩ code s.clock) with
  | error e =>
    have hcall : (AuthCall.confirmEnrolment ⟨enrol⟩ ⟨session⟩ s.config.scope requestID s.clock
        (verifyEnrolment mac ⟨enrol⟩ code s.clock)).run s.db = .error e := hrun
    rw [responseTo_error _ _ hcall]
    cases e <;> simp [codeOutcome, codeFailure, responseTo_failure]
  | ok outcome =>
    obtain ⟨r, db'⟩ := outcome
    have hcall : (AuthCall.confirmEnrolment ⟨enrol⟩ ⟨session⟩ s.config.scope requestID s.clock
        (verifyEnrolment mac ⟨enrol⟩ code s.clock)).run s.db = .ok (r, db') := hrun
    rw [responseTo_ok _ _ hcall]
    cases r with
    | ok email => simp [codeOutcome, responseTo_respond]
    | error e => cases e <;> simp [codeOutcome, codeFailure, responseTo_failure]

theorem not_confirms (h : ∀ t v, ¬ s.Live enrol t v) :
    ¬ s.Confirms mac enrol requestID code session := by
  by_cases hcookie : enrol.utf8ByteSize = 43
  · rw [confirms_iff_run hcookie]
    rintro ⟨email, db', hrun⟩
    obtain ⟨t, hfound, husable, tokens, -, houtcome⟩ := Database.confirmEnrolment_ok hrun
    obtain ⟨c, hv⟩ : ∃ c, verifyEnrolment mac ⟨enrol⟩ code s.clock t.payload = .ok c := by
      cases houtcome with
      | setup c hv => exact ⟨c, hv⟩
      | upgrade c hv => exact ⟨c, hv⟩
      | reset c hv => exact ⟨c, hv⟩
    exact h t c.enrolment ⟨hcookie, hfound, husable, (verifyEnrolment_ok hv).1⟩
  · unfold Site.Confirms confirmEnrolment
    rw [tokenCookie_none hcookie]
    simp [responseTo_failure]

theorem Site.Live.confirms_iff {t : AuthToken} {v : Enrolment} (h : s.Live enrol t v)
    (htries : s.Tries mac enrol code session) :
    s.Confirms mac enrol requestID code session ↔
      (v.scope = "" ∨ v.scope = s.config.scope) ∧ s.db.Accepts t v.kind := by
  obtain ⟨step, hvalid⟩ := htries.correct t v h
  have huse : s.db.useToken .enrol ⟨enrol⟩ s.clock =
      some (t.tried, s.db.spent ⟨enrol⟩) := by
    simp [Database.useToken, h.found, h.usable, Database.spent]
  have hverify : verifyEnrolment mac ⟨enrol⟩ code s.clock t.tried.payload =
      .ok ⟨v, ⟨.adminFactor, v.secret⟩, step⟩ := by
    simp [verifyEnrolment, AuthToken.tried, h.payload, hvalid]
  obtain ⟨hdone, hstale⟩ := applyEnrolment_done (t := t.tried)
    (c := ⟨v, ⟨.adminFactor, v.secret⟩, step⟩) s.clock
    (show (s.db.spent ⟨enrol⟩).maintenance = false from htries.running)
  rw [confirms_iff_run h.cookie, ← accepts_spent ⟨enrol⟩]
  unfold Database.confirmEnrolment
  simp only [huse, hverify]
  by_cases hscope : v.scope ≠ "" ∧ v.scope ≠ s.config.scope
  · rw [if_pos hscope]
    simp [hscope.1, hscope.2]
  · rw [if_neg hscope]
    have hkept : v.scope = "" ∨ v.scope = s.config.scope := by
      by_cases hempty : v.scope = ""
      · exact Or.inl hempty
      · exact Or.inr (not_not.mp (fun hother => hscope ⟨hempty, hother⟩))
    by_cases haccepts : (s.db.spent ⟨enrol⟩).Accepts t.tried v.kind
    · obtain ⟨db', happly, hadmin, hsessions⟩ := hdone haccepts
      rw [happly]
      have hfresh : ∀ r ∈ db'.sessions, r.tokenHash ≠ ⟨session⟩ :=
        fun r hr => htries.fresh r (hsessions r hr)
      exact iff_of_true (finishEnrolment_succeeds hadmin hfresh _ _ _ _ _) ⟨hkept, haccepts⟩
    · rw [hstale haccepts]
      simp [haccepts]

end

/-! ### Shown exactly if it can be confirmed -/

section
variable {mac : Mac} {ticks : Instant → Instant → Prop} {config : Config} {c : Pool History Call}

/-- What could still apply is accepted, if a setup has not lost its token. -/
theorem applies_accepts (h : (signIn mac ticks).Reachable config c) {enrol : String}
    {t : AuthToken} {v : Enrolment} (hlive : c.state.site.Live enrol t v)
    (happlies : c.state.site.db.Applies t v.kind)
    (hsetup : ∀ email hash, v.kind = .setup email hash → t.parentID ≠ none) :
    c.state.site.db.Accepts t v.kind := by
  have hcommits := signIn_commits h
  have ht := (Table.find_eq_some hlive.found).1
  have hparent : ∀ id, t.parentID = some id →
      c.state.site.db.parentPurpose t = v.kind.parent := fun id hid =>
    parentPurpose_of_lineage hcommits.lineage hcommits.numbered.1 ht hlive.usable.1
      hlive.usable.2.1 hid hlive.payload
  cases hkind : v.kind with
  | setup email hash =>
    obtain ⟨id, hid⟩ := Option.ne_none_iff_exists'.mp (hsetup email hash hkind)
    rw [hkind] at happlies
    exact ⟨(hparent id hid).trans (by rw [hkind]; rfl), happlies⟩
  | reset hash =>
    rw [hkind] at happlies
    exact ⟨(hparent _ happlies.2).trans (by rw [hkind]; rfl), happlies⟩
  | upgrade email binding =>
    rw [hkind] at happlies
    obtain ⟨a, ha, hless⟩ := happlies
    exact ⟨a, ha, upgrade_binding h ht hlive.payload hkind ha hless, hless⟩

theorem Database.Accepts.applies {db : Database} {t : AuthToken} {kind : EnrolmentKind}
    (h : db.Accepts t kind) : db.Applies t kind := by
  cases kind with
  | setup email hash => exact h.2
  | reset hash => exact h.2
  | upgrade email binding =>
    obtain ⟨a, ha, -, hless⟩ := h
    exact ⟨a, ha, hless⟩

/-- The enrolment under the cookie, if it lives and could still apply, was begun
    in the scope the process has now, and the token a setup began with has not
    been pruned. -/
def Site.Kept (s : Site) (enrol : String) : Prop :=
  ∀ t v, s.Live enrol t v → s.db.Applies t v.kind →
    (v.scope = "" ∨ v.scope = s.config.scope) ∧
      ∀ email hash, v.kind = .setup email hash → t.parentID ≠ none

/-- In every state that can be reached, the key is shown exactly if a correct
    code would confirm the enrolment, as long as the enrolment was kept, and only
    then. -/
theorem shown_iff_confirmable (h : (signIn mac ticks).Reachable config c) {enrol : String}
    (requestID : String) {code : Text} {session : String}
    (htries : c.state.site.Tries mac enrol code session) :
    (c.state.site.Shows enrol ↔ c.state.site.Confirms mac enrol requestID code session) ↔
      c.state.site.Kept enrol := by
  constructor
  · intro hsame t v hlive happlies
    obtain ⟨hscope, haccepts⟩ :=
      (hlive.confirms_iff htries).mp (hsame.mp (hlive.shows_iff.mpr happlies))
    refine ⟨hscope, fun email hash hkind hnone => ?_⟩
    rw [hkind] at haccepts
    have hparent := haccepts.1
    rw [Database.parentPurpose, hnone] at hparent
    cases hparent
  · intro hkept
    by_cases hlive : ∃ t v, c.state.site.Live enrol t v
    · obtain ⟨t, v, hlive⟩ := hlive
      rw [hlive.shows_iff, hlive.confirms_iff htries]
      refine ⟨fun happlies => ?_, fun h => h.2.applies⟩
      obtain ⟨hscope, hsetup⟩ := hkept t v hlive happlies
      exact ⟨hscope, applies_accepts h hlive happlies hsetup⟩
    · have hnone : ∀ t v, ¬ c.state.site.Live enrol t v := fun t v h => hlive ⟨t, v, h⟩
      exact iff_of_false (not_shows hnone) (not_confirms hnone)

end

/-- What is seen of a state in which an enrolment waits for its code. -/
structure Waiting where
  maintenance : Bool
  sessions : List SessionRow
  clock : Instant
  parentID : Option (Option ℕ)
  payload : Option Payload
  shown : Option (ℕ × String)
  scope : String
deriving DecidableEq

def Site.waiting (s : Site) : Waiting where
  maintenance := s.db.maintenance
  sessions := s.db.sessions
  clock := s.clock
  parentID := (Table.find AuthToken.tokenHash ⟨letters 'e'⟩ s.db.authTokens).map AuthToken.parentID
  payload := (Table.find AuthToken.tokenHash ⟨letters 'e'⟩ s.db.authTokens).map AuthToken.payload
  shown := responseTo "" (currentEnrolment (some (letters 'e'))) s
  scope := s.config.scope

/-- The setup has begun, and the process runs with a scope. -/
def setupWaiting (scope : String) : Waiting where
  maintenance := false
  sessions := []
  clock := atMinute 0
  parentID := some (some 1)
  payload := some (.enrolment ⟨.enrolment ⟨letters 'e'⟩,
    ⟨.setup "admin@pg.example" ⟨"salt", "correct horse battery"⟩, publicConfig.scope, []⟩⟩)
  shown := some (200, "")
  scope := scope

/-- All zeros is a correct code for any secret. -/
theorem zeros_correct (secret : TotpSecret) :
    verifyTOTP flatMac secret zeros (atMinute 0) 0 = .valid 56666665 := by
  have hcode : totpCode flatMac secret = totpCode flatMac [] := rfl
  have hsame : verifyTOTP flatMac secret zeros (atMinute 0) 0 =
      verifyTOTP flatMac [] zeros (atMinute 0) 0 := by
    unfold verifyTOTP
    rw [hcode]
  rw [hsame]
  decide +kernel

section
variable {s : Site} {scope : String} (h : s.waiting = setupWaiting scope)
include h

theorem setupWaiting_tries (session : String) : s.Tries flatMac (letters 'e') zeros session where
  running := congrArg Waiting.maintenance h
  fresh r hr := by
    rw [show s.db.sessions = [] from congrArg Waiting.sessions h] at hr
    cases hr
  correct t v _ := by
    rw [show s.clock = atMinute 0 from congrArg Waiting.clock h]
    exact ⟨_, zeros_correct v.secret⟩

theorem setupWaiting_live {t : AuthToken} {v : Enrolment} (hlive : s.Live (letters 'e') t v) :
    t.parentID = some 1 ∧ v.scope = publicConfig.scope := by
  have hparent := congrArg Waiting.parentID h
  have hpayload := congrArg Waiting.payload h
  simp only [Site.waiting, setupWaiting, hlive.found, Option.map_some, Option.some.injEq,
    hlive.payload, Payload.enrolment.injEq, Sealed.mk.injEq, true_and] at hparent hpayload
  exact ⟨hparent, by rw [hpayload]⟩

theorem setupWaiting_shows : s.Shows (letters 'e') := congrArg Waiting.shown h

end

/-- There is a run in which a setup waits for its code: the key is shown, and the
    code confirms. -/
theorem shown_iff_confirmable_setup : ∃ c : Pool History Call,
    (signIn flatMac steadyClock).Reachable publicConfig c ∧
      c.state.site.Shows (letters 'e') ∧
      c.state.site.Confirms flatMac (letters 'e') "request" zeros (letters 'k') := by
  obtain ⟨c, hreach, hseen⟩ := Circumstances.played_reachable (C := signIn flatMac steadyClock)
    rfl publicConfig (setupBegun_of (fun _ _ h => h)) (f := fun c => c.state.site.waiting)
    (a := setupWaiting publicConfig.scope) (by decide +kernel)
  have hkept : c.state.site.Kept (letters 'e') := by
    intro t v hlive _
    obtain ⟨hparent, hv⟩ := setupWaiting_live hseen hlive
    have hscope : c.state.site.config.scope = publicConfig.scope := congrArg Waiting.scope hseen
    exact ⟨Or.inr (hv.trans hscope.symm), fun _ _ _ hnone => by simp [hparent] at hnone⟩
  have htries := setupWaiting_tries hseen (letters 'k')
  have hsame := (shown_iff_confirmable hreach "request" htries).mpr hkept
  exact ⟨c, hreach, setupWaiting_shows hseen, hsame.mp (setupWaiting_shows hseen)⟩

/-- The access configuration is changed, and the process started again with it. -/
def restartAs (config : Config) : Move History Call Reply :=
  .restart (fun _ h =>
    ({ h with
      site := h.site.restarted
        (if config.scope ∈ h.site.scopes then h.site.config else config) }, []))

theorem restartAs_of (config : Config) :
    (restartAs config).Of (signIn flatMac steadyClock).system := by
  intro n h
  refine ⟨_, ?_, rfl, fun p hp => absurd hp List.not_mem_nil⟩
  by_cases hused : config.scope ∈ h.site.scopes
  · exact Or.inl (if_pos hused)
  · rw [if_neg hused]
    exact Or.inr hused

/-- The same dashboard after its access was changed once. -/
def changedConfig : Config := ⟨"home", .https, "2", "https://pg.example"⟩

/-- After a change of the access the key is still shown, but its code does not
    confirm. -/
theorem shown_after_access_change : ∃ c : Pool History Call,
    (signIn flatMac steadyClock).Reachable publicConfig c ∧
      c.state.site.Tries flatMac (letters 'e') zeros (letters 'k') ∧
      c.state.site.Shows (letters 'e') ∧
      ¬ c.state.site.Confirms flatMac (letters 'e') "request" zeros (letters 'k') := by
  have hof : ∀ m ∈ setupBegun ++ [restartAs changedConfig],
      m.Of (signIn flatMac steadyClock).system := by
    simp only [List.forall_mem_append, List.forall_mem_cons]
    exact ⟨setupBegun_of (fun _ _ h => h), restartAs_of _, by simp⟩
  obtain ⟨c, hreach, hseen⟩ := Circumstances.played_reachable (C := signIn flatMac steadyClock)
    rfl publicConfig hof (f := fun c => c.state.site.waiting)
    (a := setupWaiting changedConfig.scope) (by decide +kernel)
  have hscope : c.state.site.config.scope = changedConfig.scope := congrArg Waiting.scope hseen
  have htries := setupWaiting_tries hseen (letters 'k')
  refine ⟨c, hreach, htries, setupWaiting_shows hseen, fun hconfirms => ?_⟩
  obtain ⟨t, v, hlive⟩ : ∃ t v, c.state.site.Live (letters 'e') t v := by
    by_contra hnone
    exact not_confirms (fun t v h => hnone ⟨t, v, h⟩) hconfirms
  have hkept := ((hlive.confirms_iff htries).mp hconfirms).1
  rw [(setupWaiting_live hseen hlive).2, hscope] at hkept
  revert hkept
  decide

end Pgfy
