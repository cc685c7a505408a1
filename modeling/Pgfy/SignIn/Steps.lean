import Pgfy.Httpapi.Auth
import Pgfy.Site.History

/-! # What signing in can do

    Whatever the threads are doing, a step of a run either commits one
    statement of signing in, with arguments that fit the access configuration,
    or leaves the tables of signing in alone. All that follows about sign-in is
    proved from this.
-/

namespace Pgfy

open Calendar Program

/-! ### The arguments of the handlers -/

/-- What the handlers pass to a statement under an access configuration. A
    handler with `steps` may pass the password and a code, one without may begin
    a reset. -/
def AuthCall.Fits (mac : Mac) (cfg : Config) (steps : Bool) {β : Type} : AuthCall β → Prop
  | setup _ _ _ _ scope _ => scope = cfg.scope ∧ cfg.mode = .tunnel
  | addSession _ scope _ _ => scope = cfg.scope ∧ cfg.mode = .tunnel
  | beginEnrolment _ hash payload _ => ∃ email passwordHash secret,
      payload = .enrolment ⟨.enrolment hash, ⟨.setup email passwordHash, cfg.scope, secret⟩⟩
  | beginReset _ hash payload _ => steps = false ∧ ∃ passwordHash secret,
      payload = .enrolment ⟨.enrolment hash, ⟨.reset passwordHash, cfg.scope, secret⟩⟩
  | beginUpgrade hash payload _ => cfg.mode = .https ∧ ∃ email binding secret,
      payload = .enrolment ⟨.enrolment hash, ⟨.upgrade email binding, cfg.scope, secret⟩⟩
  | password _ => steps
  | beginPending _ _ scope _ => scope = cfg.scope ∧ steps
  | confirmEnrolment hash _ scope _ now verify =>
      scope = cfg.scope ∧ ∃ code, verify = verifyEnrolment mac hash code now
  | confirmPending _ _ scope now verify =>
      scope = cfg.scope ∧ (∃ code, verify = verifyFactor mac code now) ∧ steps
  | _ => True

/-- Whether a request passes the password or a code. -/
def SignInRequest.hasSteps : SignInRequest → Bool
  | login _ => true
  | code _ _ => true
  | _ => false

/-- A call that fits, if it is a statement of signing in. -/
def Call.Fits (mac : Mac) (cfg : Config) (steps : Bool) ⦃β : Type⦄ : Call β → Prop
  | .auth q => q.Fits mac cfg steps
  | _ => True

/-- A call that is none of signing in. -/
def Call.Foreign ⦃β : Type⦄ : Call β → Prop
  | .auth _ => False
  | _ => True

theorem Config.tunnel_of_not_https (cfg : Config) (h : cfg.mode ≠ .https) : cfg.mode = .tunnel := by
  cases hm : cfg.mode with
  | https => exact absurd hm h
  | tunnel => rfl

/-! What each handler asks for: a program makes no other calls than these. -/

section
variable {K : ∀ ⦃β : Type⦄, Call β → Prop} (hK : ∀ ⦃β : Type⦄ (c : Call β), c.Foreign → K c)
include hK

theorem failure_calls (status : ℕ) (code : String) : (failure status code).Calls K :=
  .ask (hK _ (by trivial))

theorem respond_calls (status : ℕ) : (respond status).Calls K := .ask (hK _ (by trivial))

theorem beginAuth_calls {next : Run Unit} (h : next.Calls K) : (beginAuth next).Calls K := by
  apply Prog.Calls.bind (.ask (hK _ (by trivial)))
  intro allowed
  split
  · apply Prog.Calls.bind (.ask (hK _ (by trivial)))
    intro slot
    split
    · exact h
    · exact failure_calls hK _ _
  · exact failure_calls hK _ _

theorem unlessMaintenance_calls {next : Run Unit} (h : next.Calls K) :
    (unlessMaintenance next).Calls K := by
  apply Prog.Calls.bind (.ask (hK _ (by trivial)))
  intro on
  split
  · exact h
  · exact failure_calls hK _ _

theorem hashPassword_calls (password : String) : (hashPassword password).Calls K := by
  unfold hashPassword
  split
  · trivial
  · exact Prog.Calls.bind (.ask (hK _ (by trivial))) (fun _ => trivial)

theorem startEnrolment_calls (cfg : Config) (kind : EnrolmentKind)
    (start : Digest String → Payload → Instant → AuthCall Unit)
    (h : ∀ hash secret now, K (.auth (start hash
      (.enrolment ⟨.enrolment hash, ⟨kind, cfg.scope, secret⟩⟩) now))) :
    (startEnrolment cfg kind start).Calls K := by
  apply Prog.Calls.bind (.ask (hK _ (by trivial)))
  intro secret
  apply Prog.Calls.bind (.ask (hK _ (by trivial)))
  intro enrol
  apply Prog.Calls.bind (.ask (hK _ (by trivial)))
  intro now
  apply Prog.Calls.bind (.ask (h ⟨enrol⟩ secret now))
  intro begun
  split
  · exact respond_calls hK _
  all_goals exact failure_calls hK _ _

theorem setup_calls (cfg : Config) (body : Option Credentials)
    (hbegin : ∀ token hash email passwordHash secret now, K (.auth (.beginEnrolment token hash
      (.enrolment ⟨.enrolment hash, ⟨.setup email passwordHash, cfg.scope, secret⟩⟩) now)))
    (hsetup : cfg.mode = .tunnel → ∀ token email passwordHash sessionHash now,
      K (.auth (.setup token email passwordHash sessionHash cfg.scope now))) :
    (setup cfg body).Calls K := by
  apply beginAuth_calls hK
  split
  · exact failure_calls hK _ _
  next input =>
  apply Prog.Calls.bind (.ask (hK _ (by trivial)))
  intro email
  split
  · exact failure_calls hK _ _
  apply Prog.Calls.bind (hashPassword_calls hK _)
  intro hash
  split
  · exact failure_calls hK _ _
  next hash =>
  split
  · exact startEnrolment_calls hK cfg _ _ (fun _ _ _ => hbegin _ _ _ _ _ _)
  next hmode =>
  apply Prog.Calls.bind (.ask (hK _ (by trivial)))
  intro token
  apply Prog.Calls.bind (.ask (hK _ (by trivial)))
  intro now
  apply Prog.Calls.bind (.ask (hsetup (cfg.tunnel_of_not_https hmode) _ _ _ _ _))
  intro done
  split
  · exact respond_calls hK _
  all_goals exact failure_calls hK _ _

theorem afterPassword_calls (cfg : Config) (email : String) (hash : PasswordHash)
    (hfactor : K (.auth .factor))
    (hpending : ∀ pending current now, K (.auth (.beginPending pending current cfg.scope now)))
    (hupgrade : cfg.mode = .https → ∀ enrol email binding secret now, K (.auth (.beginUpgrade enrol
      (.enrolment ⟨.enrolment enrol, ⟨.upgrade email binding, cfg.scope, secret⟩⟩) now)))
    (hadd : cfg.mode = .tunnel → ∀ sessionHash current now,
      K (.auth (.addSession sessionHash cfg.scope current now))) :
    (afterPassword cfg email hash).Calls K := by
  apply Prog.Calls.bind (.ask hfactor)
  intro current
  split
  · exact failure_calls hK _ _
  next enrolled current =>
  split
  · exact failure_calls hK _ _
  split
  · apply Prog.Calls.bind (.ask (hK _ (by trivial)))
    intro pending
    apply Prog.Calls.bind (.ask (hK _ (by trivial)))
    intro now
    apply Prog.Calls.bind (.ask (hpending _ _ _))
    intro begun
    split
    · exact respond_calls hK _
    · exact failure_calls hK _ _
  split
  · next hmode => exact startEnrolment_calls hK cfg _ _ (fun _ _ _ => hupgrade hmode _ _ _ _ _)
  next hmode =>
  apply Prog.Calls.bind (.ask (hK _ (by trivial)))
  intro token
  apply Prog.Calls.bind (.ask (hK _ (by trivial)))
  intro now
  apply Prog.Calls.bind (.ask (hadd (cfg.tunnel_of_not_https hmode) _ _ _))
  intro done
  split
  · exact respond_calls hK _
  all_goals exact failure_calls hK _ _

theorem login_calls (cfg : Config) (body : Option Credentials)
    (hpassword : ∀ email, K (.auth (.password email)))
    (hafter : ∀ email hash, (afterPassword cfg email hash).Calls K) :
    (login cfg body).Calls K := by
  apply beginAuth_calls hK
  split
  · exact failure_calls hK _ _
  next input =>
  apply Prog.Calls.bind (.ask (hK _ (by trivial)))
  intro email
  apply Prog.Calls.bind (.ask (hpassword _))
  intro hash
  split
  · exact failure_calls hK _ _
  · exact failure_calls hK _ _
  next hash =>
  split
  · exact hafter _ _
  · exact failure_calls hK _ _

theorem startReset_calls (cfg : Config) (body : Option Credentials)
    (h : ∀ token hash passwordHash secret now, K (.auth (.beginReset token hash
      (.enrolment ⟨.enrolment hash, ⟨.reset passwordHash, cfg.scope, secret⟩⟩) now))) :
    (startReset cfg body).Calls K := by
  apply unlessMaintenance_calls hK
  apply beginAuth_calls hK
  split
  · exact failure_calls hK _ _
  next input =>
  split
  · exact failure_calls hK _ _
  apply Prog.Calls.bind (hashPassword_calls hK _)
  intro hash
  split
  · exact failure_calls hK _ _
  next hash => exact startEnrolment_calls hK cfg _ _ (fun _ _ _ => h _ _ _ _ _)

theorem codeFailure_calls (e : Err) : (codeFailure e).Calls K := by
  unfold codeFailure
  split <;> exact failure_calls hK _ _

theorem codeOutcome_calls (expired : String) (r : Except Err (Except Err String)) :
    (codeOutcome expired r).Calls K := by
  unfold codeOutcome
  split
  · exact respond_calls hK _
  · exact failure_calls hK _ _
  · exact codeFailure_calls hK _
  · exact failure_calls hK _ _
  · exact codeFailure_calls hK _

theorem confirmCode_calls (mac : Mac) (cfg : Config) (pending : Option String)
    (body : Option Text) (h : ∀ hash sessionHash now code,
      K (.auth (.confirmPending hash sessionHash cfg.scope now (verifyFactor mac code now)))) :
    (confirmCode mac cfg pending body).Calls K := by
  unfold confirmCode
  split
  · exact failure_calls hK _ _
  next pending _ =>
  apply Prog.Calls.bind (.ask (hK _ (by trivial)))
  intro allowed
  split
  · split
    · exact failure_calls hK _ _
    next code =>
    apply Prog.Calls.bind (.ask (hK _ (by trivial)))
    intro now
    apply Prog.Calls.bind (.ask (hK _ (by trivial)))
    intro session
    exact Prog.Calls.bind (.ask (h _ _ _ _)) (codeOutcome_calls hK _)
  · exact failure_calls hK _ _

theorem confirmEnrolment_calls (mac : Mac) (cfg : Config) (enrol : Option String)
    (requestID : String) (body : Option Text) (h : ∀ hash sessionHash now code,
      K (.auth (.confirmEnrolment hash sessionHash cfg.scope requestID now
        (verifyEnrolment mac hash code now)))) :
    (confirmEnrolment mac cfg enrol requestID body).Calls K := by
  unfold confirmEnrolment
  split
  · exact failure_calls hK _ _
  next enrol _ =>
  apply Prog.Calls.bind (.ask (hK _ (by trivial)))
  intro allowed
  split
  · split
    · exact failure_calls hK _ _
    next code =>
    apply Prog.Calls.bind (.ask (hK _ (by trivial)))
    intro now
    apply Prog.Calls.bind (.ask (hK _ (by trivial)))
    intro session
    exact Prog.Calls.bind (.ask (h _ _ _ _)) (codeOutcome_calls hK _)
  · exact failure_calls hK _ _

theorem currentEnrolment_calls (enrol : Option String)
    (hpayload : ∀ hash now, K (.auth (.enrolmentPayload hash now))) (hfactor : K (.auth .factor))
    (husable : ∀ hash kind, K (.auth (.enrolmentUsable hash kind))) :
    (currentEnrolment enrol).Calls K := by
  unfold currentEnrolment
  split
  · exact failure_calls hK _ _
  apply Prog.Calls.bind (.ask (hK _ (by trivial)))
  intro now
  apply Prog.Calls.bind (.ask (hpayload _ _))
  intro payload
  split
  · split
    · exact failure_calls hK _ _
    apply Prog.Calls.bind
    · unfold staleUpgrade
      split
      · apply Prog.Calls.bind (.ask hfactor)
        intro current
        split <;> trivial
      · trivial
    intro stale
    split
    · exact failure_calls hK _ _
    apply Prog.Calls.bind (.ask (husable _ _))
    intro usable
    split
    · exact respond_calls hK _
    · exact failure_calls hK _ _
  · exact failure_calls hK _ _

theorem abandonSteps_calls (pending enrol : Option String)
    (h : ∀ hash now, K (.auth (.abandon hash now))) : (abandonSteps pending enrol).Calls K := by
  have hstep : ∀ cookie, (abandonStep cookie).Calls K := by
    intro cookie
    unfold abandonStep
    split
    · trivial
    apply Prog.Calls.bind (.ask (hK _ (by trivial)))
    intro now
    exact Prog.Calls.bind (.ask (h _ _)) (fun _ => trivial)
  exact Prog.Calls.bind (hstep pending) (fun _ => hstep enrol)

theorem authorize_calls (cfg : Config) (cookie : Option String) (csrf : Option Csrf) (reads : Bool)
    {next : String → Run Unit} (hsession : ∀ token now, K (.auth (.session token cfg.scope now)))
    (h : ∀ token, (next token).Calls K) : (authorize cfg cookie csrf reads next).Calls K := by
  unfold authorize
  split
  · exact failure_calls hK _ _
  apply Prog.Calls.bind (.ask (hK _ (by trivial)))
  intro now
  apply Prog.Calls.bind (.ask (hsession _ _))
  intro row
  split
  · exact failure_calls hK _ _
  · exact failure_calls hK _ _
  split
  · exact failure_calls hK _ _
  · exact h _

theorem logout_calls (cfg : Config) (cookie : Option String) (csrf : Option Csrf)
    (pending enrol : Option String)
    (hsession : ∀ token now, K (.auth (.session token cfg.scope now)))
    (hlogout : ∀ token, K (.auth (.logout token)))
    (habandon : ∀ hash now, K (.auth (.abandon hash now))) :
    (logout cfg cookie csrf pending enrol).Calls K := by
  apply authorize_calls hK cfg _ _ _ hsession
  intro token
  apply Prog.Calls.bind (.ask (hlogout _))
  intro done
  split
  · exact failure_calls hK _ _
  · exact Prog.Calls.bind (abandonSteps_calls hK pending enrol habandon)
      (fun _ => respond_calls hK _)

end

theorem Call.Foreign.fits {mac : Mac} {cfg : Config} {steps : Bool} ⦃β : Type⦄ (c : Call β)
    (h : c.Foreign) : c.Fits mac cfg steps := by
  cases c <;> first | exact h.elim | trivial

/-- Every statement a handler of signing in makes fits the configuration it runs under. -/
theorem handler_fits (mac : Mac) (cfg : Config) (request : SignInRequest) :
    (request.handler mac cfg).Calls (Call.Fits mac cfg request.hasSteps) := by
  cases request with
  | setup body =>
    exact setup_calls Call.Foreign.fits cfg body (fun _ _ _ _ _ _ => ⟨_, _, _, rfl⟩)
      (fun hmode _ _ _ _ _ => ⟨rfl, hmode⟩)
  | login body =>
    refine login_calls Call.Foreign.fits cfg body (fun _ => rfl) (fun email hash => ?_)
    exact afterPassword_calls Call.Foreign.fits cfg email hash trivial (fun _ _ _ => ⟨rfl, rfl⟩)
      (fun hmode _ _ _ _ _ => ⟨hmode, _, _, _, rfl⟩) (fun hmode _ _ _ => ⟨rfl, hmode⟩)
  | reset body =>
    exact startReset_calls Call.Foreign.fits cfg body (fun _ _ _ _ _ => ⟨rfl, _, _, rfl⟩)
  | code pending body =>
    exact confirmCode_calls Call.Foreign.fits mac cfg pending body
      (fun _ _ _ code => ⟨rfl, ⟨code, rfl⟩, rfl⟩)
  | confirmEnrolment enrol requestID body =>
    exact confirmEnrolment_calls Call.Foreign.fits mac cfg enrol requestID body
      (fun _ _ _ code => ⟨rfl, code, rfl⟩)
  | currentEnrolment enrol =>
    exact currentEnrolment_calls Call.Foreign.fits enrol (fun _ _ => trivial) trivial
      (fun _ _ => trivial)
  | abandon pending enrol =>
    exact Prog.Calls.bind (abandonSteps_calls Call.Foreign.fits pending enrol (fun _ _ => trivial))
      (fun _ => respond_calls Call.Foreign.fits _)
  | session cookie =>
    exact authorize_calls Call.Foreign.fits cfg _ _ _ (fun _ _ => trivial)
      (fun _ => respond_calls Call.Foreign.fits _)
  | logout cookie csrf pending enrol =>
    exact logout_calls Call.Foreign.fits cfg cookie csrf pending enrol (fun _ _ => trivial)
      (fun _ => trivial) (fun _ _ => trivial)

/-! ### The runs -/

/-- The commands on the host that touch signing in, or hold the installation quiet. -/
def HostCommand ⦃β : Type⦄ : Call β → Prop
  | .auth (.newSetupToken _ _) => True
  | .auth (.newResetToken _ _) => True
  | .store (.setMaintenance _) => True
  | _ => False

/-- Requests of signing in, among anything else the application may be doing. -/
def signIn (mac : Mac) (ticks : Instant → Instant → Prop) : Circumstances where
  fails := everyFault
  ticks := ticks
  host := HostCommand
  starts s p := (∃ request : SignInRequest, p = request.handler mac s.config) ∨
    p.Calls Call.Foreign
  boots _ new := ∀ p ∈ new, Prog.Calls Call.Foreign p

/-- A clock that may be set to anything. -/
def anyClock : Instant → Instant → Prop := fun _ _ => True

/-- A clock that never runs backwards. -/
def steadyClock : Instant → Instant → Prop := (· ≤ ·)

/-! ### Committed statements -/

/-- A statement of signing in that was committed. -/
structure Signed where
  thread : Option ℕ
  {γ : Type}
  statement : AuthCall γ
  result : γ
  clock : Instant
  before : Database
  after : Database

def Note.signed : Note → Option Signed
  | ⟨thread, .auth q, .ok a, before, after⟩ =>
    some ⟨thread, q, a, before.clock, before.db, after.db⟩
  | _ => none

/-- The committed statements of a run, newest first. -/
def History.signed (h : History) : List Signed := h.log.filterMap Note.signed

/-- The tables of signing in are the same. -/
structure SameSignIn (db db' : Database) : Prop where
  administrator : db'.administrator = db.administrator
  sessions : db'.sessions = db.sessions
  authTokens : db'.authTokens = db.authTokens
  nextToken : db'.nextToken = db.nextToken

/-- What a step of a run can do to signing in. -/
inductive SignStep (mac : Mac) (ticks : Instant → Instant → Prop) (h h' : History) : Prop
  | idle (hsigned : h'.signed = h.signed) (hsame : SameSignIn h.site.db h'.site.db)
      (hconfig : h'.site.config = h.site.config) (hscopes : h'.site.scopes = h.site.scopes)
      (hclock : h'.site.clock = h.site.clock ∨ ticks h.site.clock h'.site.clock)
  | commit (x : Signed) (hsigned : h'.signed = x :: h.signed)
      (hrun : x.statement.run x.before = .ok (x.result, x.after)) (hbefore : x.before = h.site.db)
      (hafter : x.after = h'.site.db) (htime : x.clock = h.site.clock)
      (hfits : ∃ steps, x.statement.Fits mac h.site.config steps)
      (hconfig : h'.site.config = h.site.config) (hscopes : h'.site.scopes = h.site.scopes)
      (hclock : h'.site.clock = h.site.clock)
  | restart (config : Config) (hnew : config = h.site.config ∨ config.scope ∉ h.site.scopes)
      (hsite : h' = { h with site := h.site.restarted config })

theorem SameSignIn.refl (db : Database) : SameSignIn db db := ⟨rfl, rfl, rfl, rfl⟩

theorem signed_add_none {h : History} {thread : Option ℕ} {β : Type} {c : Call β} {r : β}
    {s : Site} (hnone : (⟨thread, c, r, h.site, s⟩ : Note).signed = none) :
    (h.add thread c r s).signed = h.signed := by
  rw [History.signed, History.add, List.filterMap_cons, hnone]
  rfl

/-- A call that fits is a step of signing in. -/
theorem signStep_call {mac : Mac} {ticks : Instant → Instant → Prop} {fails : Faults} {i : ℕ}
    {thread : Option ℕ} {β : Type} {c : Call β} {h : History} {r : β} {s : Site}
    (hfits : ∃ steps, c.Fits mac h.site.config steps) (hr : Site.Replies fails i c h.site r s) :
    SignStep mac ticks h (h.add thread c r s) := by
  obtain ⟨hconfig, hscopes, hclock⟩ := hr.config
  -- a call that leaves no committed statement and the tables alone
  have hidle : (⟨thread, c, r, h.site, s⟩ : Note).signed = none → SameSignIn h.site.db s.db →
      SignStep mac ticks h (h.add thread c r s) := fun hnone hsame =>
    .idle (signed_add_none hnone) hsame hconfig hscopes (Or.inl hclock)
  have hwrites := hr.writes
  cases c with
  | auth q =>
    rcases hwrites with ⟨a, hrun, rfl⟩ | ⟨⟨e, rfl⟩, hdb⟩
    · exact .commit ⟨thread, q, a, h.site.clock, h.site.db, s.db⟩ rfl hrun rfl rfl rfl hfits
        hconfig hscopes hclock
    · exact hidle rfl (hdb ▸ .refl _)
  | store q =>
    rcases hwrites with ⟨a, hrun, rfl⟩ | ⟨⟨e, rfl⟩, hdb⟩
    · obtain ⟨ha, hs, ht, hn⟩ := (StoreCall.run_frame hrun).signIn
      exact hidle rfl ⟨ha, hs, ht, hn⟩
    · exact hidle rfl (hdb ▸ .refl _)
  | _ => exact hidle rfl ((show s.db = h.site.db from hwrites) ▸ .refl _)

/-- Every run from a state without threads is a run of these steps. -/
theorem signIn_steps {mac : Mac} {ticks : Instant → Instant → Prop} {h : History}
    {c : Pool History Call} (hreach : Reaches (signIn mac ticks).system ⟨h, []⟩ c) :
    Relation.ReflTransGen (SignStep mac ticks) h c.state := by
  refine (Reaches.by_calls (K := fun h _ c => ∃ steps, c.Fits mac h.site.config steps) ?_ ?_ ?_ ?_
    (by simp) hreach).1
  · rintro s p (⟨request, rfl⟩ | hforeign)
    · exact (handler_fits mac s.site.config request).mono (fun _ _ hc => ⟨_, hc⟩)
    · refine hforeign.mono (fun β c hc => ⟨true, ?_⟩)
      cases c <;> trivial
  · rintro i β s _ c r hfits ⟨s', hr, rfl⟩
    refine ⟨signStep_call hfits hr, fun γ c' hc' => ?_⟩
    rwa [show (s.add (some i) c r s').site.config = s.site.config from hr.config.1]
  · rintro s _ (⟨t, ht⟩ | ⟨t, ht, hs⟩ | ⟨c, hc, i, r, s', hr⟩)
    · exact ⟨.idle rfl (.refl _) rfl rfl (Or.inr ht), fun _ _ hc => hc⟩
    · exact ⟨.idle rfl (.refl _) rfl rfl (Or.inl rfl), fun _ _ hc => hc⟩
    · have hfits : ∃ steps, c.Fits mac s.site.config steps := by
        refine ⟨true, ?_⟩
        cases c with
        | auth q => cases q <;> trivial
        | _ => trivial
      refine ⟨signStep_call hfits hr, fun γ c' hc' => ?_⟩
      rwa [show (s.add none c r s').site.config = s.site.config from hr.config.1]
  · rintro n s _ new ⟨config, hnew, rfl, hboots⟩
    refine ⟨.restart config hnew rfl, fun p hp => (hboots p hp).mono (fun β c hc => ⟨true, ?_⟩)⟩
    cases c <;> trivial

/-- What holds of a fresh installation and is kept by every step holds in every run. -/
theorem signIn_invariant {mac : Mac} {ticks : Instant → Instant → Prop} {config : Config}
    {P : History → Prop} (init : P ⟨{ config := config }, []⟩)
    (step : ∀ {h h'}, SignStep mac ticks h h' → P h → P h') {c : Pool History Call}
    (hreach : (signIn mac ticks).Reachable config c) : P c.state := by
  have hrun := signIn_steps hreach
  generalize c.state = h at hrun
  induction hrun with
  | refl => exact init
  | tail _ hstep ih => exact step hstep ih

end Pgfy
