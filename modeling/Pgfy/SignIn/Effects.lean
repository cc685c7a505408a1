import Pgfy.SignIn.Steps

/-! # The effects of signing in

    One constructor for each thing a committed statement of signing in can have
    done to the administrator, the sessions and the tokens.
-/

namespace Pgfy

open Calendar Program

variable {mac : Mac} {cfg : Config} {x : Signed} {now : Instant}

/-- What is issued: for what, under which hash, with what, and when. -/
structure Issued where
  purpose : Purpose
  hash : Digest String
  payload : Payload
  now : Instant

/-- The row that is added. -/
def Issued.row (i : Issued) (before : Database) (parent : Option ℕ) : AuthToken :=
  before.newToken i.purpose i.hash i.purpose.ttl i.purpose.tries parent i.payload i.now

/-- The token a statement issues, if it does. -/
def AuthCall.issued {β : Type} : AuthCall β → Option Issued
  | newSetupToken hash now => some ⟨.setup, hash, .empty, now⟩
  | beginEnrolment _ hash payload now => some ⟨.enrol, hash, payload, now⟩
  | beginUpgrade hash payload now => some ⟨.enrol, hash, payload, now⟩
  | newResetToken hash now => some ⟨.reset, hash, .empty, now⟩
  | beginReset _ hash payload now => some ⟨.enrol, hash, payload, now⟩
  | beginPending hash passwordHash scope now =>
    some ⟨.pending, hash, .pending ⟨passwordHash⟩ scope, now⟩
  | _ => none

/-- The statements that neither issue a token, open or end a session, nor check a code. -/
def AuthCall.Quiet {β : Type} : AuthCall β → Prop
  | enrolmentPayload .. => True
  | enrolmentUsable .. => True
  | factor => True
  | password .. => True
  | session .. => True
  | abandon .. => True
  | _ => False

theorem AuthCall.Quiet.issued {β : Type} {q : AuthCall β} (h : q.Quiet) : q.issued = none := by
  cases q <;> first | rfl | exact h.elim

/-- A token was issued and nothing else happened. -/
structure Issues (before after : Database) (i : Issued) (parent : Option ℕ) : Prop where
  administrator : after.administrator = before.administrator
  sessions : after.sessions = before.sessions
  nextToken : after.nextToken = before.nextToken + 1
  rows : ∃ tokens, Database.Pruned i.now before.authTokens tokens ∧
    (∀ t ∈ tokens, t.tokenHash ≠ i.hash) ∧ after.authTokens = tokens ++ [i.row before parent]

/-- What a committed statement did. -/
inductive Effect (mac : Mac) (cfg : Config) : Signed → Prop
  | quiet {x : Signed} (hq : x.statement.Quiet)
      (hadmin : x.after.administrator = x.before.administrator)
      (hsessions : x.after.sessions = x.before.sessions)
      (htokens : Stays x.before.authTokens x.after.authTokens)
      (hnext : x.after.nextToken = x.before.nextToken) : Effect mac cfg x
  | logout {thread clock before} (token : Digest String) :
      Effect mac cfg ⟨thread, .logout token, (), clock, before, before.logout token⟩
  | setupToken {thread clock before after} (hash : Digest String) (now : Instant)
      (hnone : before.administrator = none)
      (h : Issues before after ⟨.setup, hash, .empty, now⟩ none) :
      Effect mac cfg ⟨thread, .newSetupToken hash now, (), clock, before, after⟩
  | setup {thread clock before after} (token : Digest String) (email : String)
      (passwordHash : PasswordHash) (sessionHash : Digest String) (now : Instant)
      (hmode : cfg.mode = .tunnel) (hnone : before.administrator = none)
      (tokens : List AuthToken) (hstays : Stays before.authTokens tokens)
      (hafter : after = { before with
        administrator := some
          { email := email, passwordHash := passwordHash, createdAt := unix now }
        authTokens := tokens
        sessions := before.keptSessions cfg.scope now ++
          [Database.newSession sessionHash cfg.scope now] }) :
      Effect mac cfg ⟨thread, .setup token email passwordHash sessionHash cfg.scope now, (), clock,
        before, after⟩
  | setupBegun {thread clock before after} (token hash : Digest String) (email : String)
      (passwordHash : PasswordHash) (secret : TotpSecret) (now : Instant)
      (hnone : before.administrator = none) (p : AuthToken) (hp : p ∈ before.authTokens)
      (husable : p.Usable .setup now)
      (h : Issues before after ⟨.enrol, hash, .enrolment ⟨.enrolment hash,
        ⟨.setup email passwordHash, cfg.scope, secret⟩⟩, now⟩ (some p.id)) :
      Effect mac cfg ⟨thread, .beginEnrolment token hash (.enrolment ⟨.enrolment hash,
        ⟨.setup email passwordHash, cfg.scope, secret⟩⟩) now, (), clock, before, after⟩
  | upgradeBegun {thread clock before after} (hash : Digest String) (email : String)
      (binding : Digest PasswordHash) (secret : TotpSecret) (now : Instant)
      (hmode : cfg.mode = .https)
      (h : Issues before after ⟨.enrol, hash, .enrolment ⟨.enrolment hash,
        ⟨.upgrade email binding, cfg.scope, secret⟩⟩, now⟩ none) :
      Effect mac cfg ⟨thread, .beginUpgrade hash (.enrolment ⟨.enrolment hash,
        ⟨.upgrade email binding, cfg.scope, secret⟩⟩) now, (), clock, before, after⟩
  | resetToken {thread clock before after} (hash : Digest String) (now : Instant)
      (hsome : before.administrator ≠ none)
      (h : Issues before after ⟨.reset, hash, .empty, now⟩ none)
      (hconsumed : ∀ t ∈ after.authTokens, t.purpose = .reset → t.consumedAt = none →
        t.id = before.nextToken) :
      Effect mac cfg ⟨thread, .newResetToken hash now, (), clock, before, after⟩
  | resetBegun {thread clock before after} (token hash : Digest String)
      (passwordHash : PasswordHash) (secret : TotpSecret) (now : Instant) (p : AuthToken)
      (hp : p ∈ before.authTokens) (husable : p.Usable .reset now)
      (h : Issues before after ⟨.enrol, hash, .enrolment ⟨.enrolment hash,
        ⟨.reset passwordHash, cfg.scope, secret⟩⟩, now⟩ (some p.id)) :
      Effect mac cfg ⟨thread, .beginReset token hash (.enrolment ⟨.enrolment hash,
        ⟨.reset passwordHash, cfg.scope, secret⟩⟩) now, (), clock, before, after⟩
  | password {thread clock before after} (sessionHash : Digest String)
      (passwordHash : PasswordHash) (now : Instant) (hmode : cfg.mode = .tunnel)
      (a : Administrator) (ha : before.administrator = some a)
      (hhash : a.passwordHash = passwordHash) (hnone : a.totpSecretSealed = none)
      (hafter : after = { before with
        sessions := before.keptSessions cfg.scope now ++
          [Database.newSession sessionHash cfg.scope now] }) :
      Effect mac cfg ⟨thread, .addSession sessionHash cfg.scope passwordHash now, (), clock,
        before, after⟩
  | pendingBegun {thread clock before after} (hash : Digest String) (passwordHash : PasswordHash)
      (now : Instant)
      (h : Issues before after ⟨.pending, hash, .pending ⟨passwordHash⟩ cfg.scope, now⟩ none) :
      Effect mac cfg ⟨thread, .beginPending hash passwordHash cfg.scope now, (), clock, before,
        after⟩
  | code {thread clock before after} (hash sessionHash : Digest String) (now : Instant)
      (code : Text) (r : Except Err String) (a : Administrator) (t : AuthToken)
      (ha : before.administrator = some a) (hlock : a.codeLockedUntil ≤ unix now)
      (hfind : Table.find AuthToken.tokenHash hash before.authTokens = some t)
      (husable : t.Usable .pending now) (tokens : List AuthToken)
      (hspent : Database.AttemptSpent hash t before.authTokens tokens)
      (h : Database.CodeOutcome before a t tokens sessionHash cfg.scope now
        (verifyFactor mac code now) r after) :
      Effect mac cfg ⟨thread, .confirmPending hash sessionHash cfg.scope now
        (verifyFactor mac code now), r, clock, before, after⟩
  | enrol {thread clock before after} (hash sessionHash : Digest String) (requestID : String)
      (now : Instant) (code : Text) (r : Except Err String) (t : AuthToken)
      (hfind : Table.find AuthToken.tokenHash hash before.authTokens = some t)
      (husable : t.Usable .enrol now) (tokens : List AuthToken)
      (haged : Aged before.authTokens tokens)
      (h : Database.EnrolOutcome before t tokens sessionHash cfg.scope now
        (verifyEnrolment mac hash code now) r after) :
      Effect mac cfg ⟨thread, .confirmEnrolment hash sessionHash cfg.scope requestID now
        (verifyEnrolment mac hash code now), r, clock, before, after⟩

/-- A statement whose outcome is a new database. -/
theorem map_eq_ok {r : Except Err Database} {u : Unit} {db' : Database}
    (h : r.map ((), ·) = .ok (u, db')) : r = .ok db' := by
  cases r with
  | error e => cases h
  | ok d =>
    cases h
    rfl

theorem mapRead_eq_ok {β : Type} {r : Except Err β} {a : β} {db db' : Database}
    (h : r.map (·, db) = .ok (a, db')) : db' = db := by
  cases r with
  | error e => cases h
  | ok b =>
    cases h
    rfl

theorem Database.Adds.issues {before after : Database} {i : Issued} {parent : Option ℕ}
    (h : before.Adds i.now (i.row before parent) after) : Issues before after i parent := by
  obtain ⟨tokens, hpruned, hfresh, rfl⟩ := h
  exact ⟨rfl, rfl, rfl, tokens, hpruned, hfresh, rfl⟩

theorem Database.newSetupToken_ok {db db' : Database} {hash : Digest String}
    (h : db.newSetupToken hash now = .ok db') : db.administrator = none ∧
      Issues db db' ⟨.setup, hash, .empty, now⟩ none := by
  unfold Database.newSetupToken at h
  split at h
  · cases h
  next hnone =>
  split at h
  · cases h
  exact ⟨by simpa using hnone, (Database.issue_ok h).issues⟩

theorem Database.newResetToken_ok {db db' : Database} {hash : Digest String}
    (h : db.newResetToken hash now = .ok db') : db.administrator ≠ none ∧
      Issues db db' ⟨.reset, hash, .empty, now⟩ none ∧
      ∀ t ∈ db'.authTokens, t.purpose = .reset → t.consumedAt = none → t.id = db.nextToken := by
  unfold Database.newResetToken at h
  split at h
  · cases h
  next hsome =>
  obtain ⟨tokens, hpruned, hfresh, rfl⟩ := Database.issue_ok h
  refine ⟨by simpa using hsome, ⟨rfl, rfl, rfl, tokens, ?_, hfresh, rfl⟩, ?_⟩
  · refine Database.Pruned.after (Database.stays_consumeResets now db) hpruned
  · intro t ht hreset hlive
    rcases List.mem_append.mp ht with ht | ht
    · -- an older reset token is consumed
      obtain ⟨t₁, ht₁, hl⟩ := hpruned.aged.mem ht
      obtain ⟨t₀, ht₀, rfl⟩ := List.mem_map.mp ht₁
      exfalso
      by_cases hcase : t₀.purpose = .reset ∧ t₀.consumedAt = none
      · rw [if_pos hcase] at hl
        exact hl.consumed (by simp) hlive
      · rw [if_neg hcase] at hl
        exact hcase ⟨hl.purpose ▸ hreset, by
          by_contra hc
          exact hl.consumed hc hlive⟩
    · obtain rfl := List.mem_singleton.mp ht
      rfl

/-- A committed statement that fits has one of these effects. -/
theorem Signed.effect (hrun : x.statement.run x.before = .ok (x.result, x.after))
    (hfits : ∃ steps, x.statement.Fits mac cfg steps) : Effect mac cfg x := by
  obtain ⟨steps, hfits⟩ := hfits
  obtain ⟨thread, q, r, clock, before, after⟩ := x
  dsimp only at hrun hfits
  cases q with
  | newSetupToken hash now =>
    obtain ⟨hnone, h⟩ := Database.newSetupToken_ok (map_eq_ok hrun)
    exact .setupToken hash now hnone h
  | setup token email passwordHash sessionHash scope now =>
    obtain ⟨rfl, hmode⟩ := hfits
    obtain ⟨hnone, tokens, haged, hafter⟩ := Database.setup_ok (map_eq_ok hrun)
    exact .setup token email passwordHash sessionHash now hmode hnone tokens haged hafter
  | beginEnrolment token hash payload now =>
    obtain ⟨email, passwordHash, secret, rfl⟩ := hfits
    obtain ⟨hnone, p, hp, husable, h⟩ := Database.beginEnrolment_ok (map_eq_ok hrun)
    exact .setupBegun token hash email passwordHash secret now hnone p hp husable h.issues
  | beginUpgrade hash payload now =>
    obtain ⟨hmode, email, binding, secret, rfl⟩ := hfits
    exact .upgradeBegun hash email binding secret now hmode
      (Database.issue_ok (map_eq_ok hrun)).issues
  | newResetToken hash now =>
    obtain ⟨hsome, h, hconsumed⟩ := Database.newResetToken_ok (map_eq_ok hrun)
    exact .resetToken hash now hsome h hconsumed
  | beginReset token hash payload now =>
    obtain ⟨-, passwordHash, secret, rfl⟩ := hfits
    obtain ⟨p, hp, husable, h⟩ := Database.beginReset_ok (map_eq_ok hrun)
    exact .resetBegun token hash passwordHash secret now p hp husable h.issues
  | enrolmentPayload hash now | factor =>
    have hsame := mapRead_eq_ok hrun
    subst hsame
    exact .quiet trivial rfl rfl (.refl _) rfl
  | enrolmentUsable hash kind | password email | session token scope now =>
    cases hrun
    exact .quiet trivial rfl rfl (.refl _) rfl
  | confirmEnrolment hash sessionHash scope requestID now verify =>
    obtain ⟨rfl, code, rfl⟩ := hfits
    obtain ⟨t, hfind, husable, tokens, haged, h⟩ := Database.confirmEnrolment_ok hrun
    exact .enrol hash sessionHash requestID now code r t hfind husable tokens haged h
  | addSession sessionHash scope passwordHash now =>
    obtain ⟨rfl, hmode⟩ := hfits
    obtain ⟨⟨a, ha, hhash, hnone⟩, hafter⟩ := Database.addPasswordSession_ok (map_eq_ok hrun)
    exact .password sessionHash passwordHash now hmode a ha hhash hnone hafter
  | beginPending hash passwordHash scope now =>
    obtain ⟨rfl, -⟩ := hfits
    exact .pendingBegun hash passwordHash now (Database.issue_ok (map_eq_ok hrun)).issues
  | confirmPending hash sessionHash scope now verify =>
    obtain ⟨rfl, ⟨code, rfl⟩, -⟩ := hfits
    obtain ⟨a, t, ha, hlock, hfind, husable, tokens, hspent, h⟩ := Database.confirmPending_ok hrun
    exact .code hash sessionHash now code r a t ha hlock hfind husable tokens hspent h
  | abandon hash now =>
    cases hrun
    exact .quiet trivial rfl rfl (Database.stays_abandon hash now before) rfl
  | logout token =>
    cases hrun
    exact .logout token

/-! ### Where tokens come from -/

theorem Database.countFailure_same (db : Database) (a : Administrator) (now : Instant) :
    db.countFailure a now = { db with
      administrator := some (a.countFailure now)
      alertEvents := (db.countFailure a now).alertEvents } := by
  unfold Database.countFailure
  dsimp only
  split <;> rfl

theorem Database.CodeOutcome.tokens {db db' : Database} {a : Administrator} {t : AuthToken}
    {tokens : List AuthToken} {sessionHash : Digest String} {scope : String}
    {verify : Sealed TotpSecret → ℤ → Except Err ℤ} {r : Except Err String}
    (h : Database.CodeOutcome db a t tokens sessionHash scope now verify r db') :
    db'.authTokens = tokens ∧ db'.nextToken = db.nextToken := by
  cases h with
  | rejected | refused secret hs e he hv | accepted secret hs hp step hv hlt => exact ⟨rfl, rfl⟩
  | wrong secret hs hv =>
    rw [Database.countFailure_same]
    exact ⟨rfl, rfl⟩

theorem Database.EnrolOutcome.tokens {db db' : Database} {t : AuthToken} {tokens : List AuthToken}
    {sessionHash : Digest String} {scope : String}
    {verify : Payload → Except Err ConfirmedEnrolment} {r : Except Err String}
    (h : Database.EnrolOutcome db t tokens sessionHash scope now verify r db') :
    db'.authTokens = tokens ∧ db'.nextToken = db.nextToken := by
  cases h <;> exact ⟨rfl, rfl⟩

/-- Where a token that is issued comes from: only an administrator is reset,
    and a parent is a token that has not been used up. -/
structure Descends (before : Database) (i : Issued) (parent : Option ℕ) : Prop where
  reset : i.purpose = .reset → before.administrator ≠ none
  live : ∀ id, parent = some id → ∃ p ∈ before.authTokens, p.id = id ∧ p.consumedAt = none ∧
    (p.purpose = .reset ∨ before.administrator = none)
  kind : ∀ v hash, i.payload = .enrolment v → v.plain.kind = .reset hash → i.purpose = .enrol ∧
    ∃ p ∈ before.authTokens, parent = some p.id ∧ p.purpose = .reset ∧ p.consumedAt = none

theorem Descends.orphan {before : Database} {i : Issued}
    (hreset : i.purpose = .reset → before.administrator ≠ none)
    (hkind : ∀ v hash, i.payload = .enrolment v → v.plain.kind ≠ .reset hash) :
    Descends before i none :=
  ⟨hreset, fun _ h => (nomatch h), fun v hash hv hk => absurd hk (hkind v hash hv)⟩

theorem Descends.child {before : Database} {i : Issued} {p : AuthToken} {purpose : Purpose}
    (hi : i.purpose = .enrol) (hp : p ∈ before.authTokens) (husable : p.Usable purpose now)
    (hwhy : purpose = .reset ∨ before.administrator = none)
    (hkind : ∀ v hash, i.payload = .enrolment v → v.plain.kind = .reset hash → purpose = .reset) :
    Descends before i (some p.id) := by
  refine ⟨fun h => (nomatch hi.symm.trans h), ?_,
    fun v hash hv hk => ⟨hi, p, hp, rfl, ?_, husable.2.1⟩⟩
  · rintro id ⟨⟩
    exact ⟨p, hp, rfl, husable.2.1, hwhy.imp_left husable.1.trans⟩
  · exact husable.1.trans (hkind v hash hv hk)

/-- A statement that issues a token issues this one. -/
theorem Effect.issues (h : Effect mac cfg x) {i : Issued} (hi : x.statement.issued = some i) :
    ∃ parent, Issues x.before x.after i parent ∧ Descends x.before i parent := by
  cases h with
  | quiet hq => exact absurd (hq.issued.symm.trans hi) (by simp)
  | setupToken hash now _ h | pendingBegun _ _ _ h =>
    cases hi
    exact ⟨_, h, .orphan (fun h => (nomatch h)) (fun _ _ h => (nomatch h))⟩
  | setupBegun _ _ _ _ _ _ hnone p hp husable h =>
    cases hi
    refine ⟨_, h, .child rfl hp husable (Or.inr hnone) ?_⟩
    rintro _ hash ⟨⟩ hk
    cases hk
  | upgradeBegun _ _ _ _ _ _ h =>
    cases hi
    refine ⟨_, h, .orphan (fun h => (nomatch h)) ?_⟩
    rintro _ hash ⟨⟩ hk
    cases hk
  | resetToken _ _ hsome h =>
    cases hi
    exact ⟨_, h, .orphan (fun _ => hsome) (fun _ _ h => (nomatch h))⟩
  | resetBegun _ _ _ _ _ p hp husable h =>
    cases hi
    exact ⟨_, h, .child rfl hp husable (Or.inl rfl) (fun _ _ _ _ => rfl)⟩
  | _ => cases hi

/-- A statement that issues none only ages those there are. -/
theorem Effect.aged (h : Effect mac cfg x) (hi : x.statement.issued = none) :
    Aged x.before.authTokens x.after.authTokens ∧ x.after.nextToken = x.before.nextToken := by
  cases h with
  | quiet hq _ _ htokens hnext => exact ⟨htokens.aged, hnext⟩
  | logout => exact ⟨.refl _, rfl⟩
  | setup _ _ _ _ _ _ _ tokens hstays hafter =>
    subst hafter
    exact ⟨hstays.aged, rfl⟩
  | password _ _ _ _ _ _ _ _ hafter =>
    subst hafter
    exact ⟨.refl _, rfl⟩
  | code _ _ _ _ _ _ _ _ _ _ _ tokens hspent h =>
    exact ⟨h.tokens.1 ▸ hspent.1.aged, h.tokens.2⟩
  | enrol _ _ _ _ _ _ _ _ _ tokens haged h =>
    exact ⟨h.tokens.1 ▸ haged, h.tokens.2⟩
  | _ => cases hi

/-- A token was there before, or has just been issued. -/
theorem Effect.token (h : Effect mac cfg x) {t : AuthToken} (ht : t ∈ x.after.authTokens) :
    (∃ t₀ ∈ x.before.authTokens, t₀.Later t) ∨ ∃ i parent, x.statement.issued = some i ∧
      Descends x.before i parent ∧ t = i.row x.before parent := by
  cases hi : x.statement.issued with
  | none => exact Or.inl ((h.aged hi).1.mem ht)
  | some i =>
    obtain ⟨parent, hissues, hdescends⟩ := h.issues hi
    obtain ⟨tokens, hpruned, -, hrows⟩ := hissues.rows
    rw [hrows, List.mem_append, List.mem_singleton] at ht
    rcases ht with ht | rfl
    · exact Or.inl (hpruned.aged.mem ht)
    · exact Or.inr ⟨i, parent, rfl, hdescends, rfl⟩

theorem Effect.nextToken_le (h : Effect mac cfg x) : x.before.nextToken ≤ x.after.nextToken := by
  cases hi : x.statement.issued with
  | none => exact (h.aged hi).2.ge
  | some i =>
    obtain ⟨parent, hissues, -⟩ := h.issues hi
    exact hissues.nextToken ▸ Nat.le_succ _

/-- Tokens have different numbers, all of them handed out before. -/
structure Database.Numbered (db : Database) : Prop where
  ids : (db.authTokens.map AuthToken.id).Nodup
  below : ∀ t ∈ db.authTokens, t.id < db.nextToken

theorem Aged.ids {ts ts' : List AuthToken} (h : Aged ts ts') :
    (ts'.map AuthToken.id).Sublist (ts.map AuthToken.id) :=
  h.map_sublist AuthToken.id (fun _ _ hl => hl.id)

theorem Effect.numbered (h : Effect mac cfg x) (hn : x.before.Numbered) : x.after.Numbered := by
  cases hi : x.statement.issued with
  | none =>
    obtain ⟨haged, hnext⟩ := h.aged hi
    refine ⟨haged.ids.nodup hn.ids, fun t ht => ?_⟩
    obtain ⟨t₀, ht₀, hl⟩ := haged.mem ht
    rw [hl.id, hnext]
    exact hn.below t₀ ht₀
  | some i =>
    obtain ⟨parent, hissues, -⟩ := h.issues hi
    obtain ⟨tokens, hpruned, -, hrows⟩ := hissues.rows
    have hold : ∀ t ∈ tokens, t.id < x.before.nextToken := by
      intro t ht
      obtain ⟨t₀, ht₀, hl⟩ := hpruned.aged.mem ht
      rw [hl.id]
      exact hn.below t₀ ht₀
    constructor
    · rw [hrows, List.map_append, List.nodup_append]
      refine ⟨hpruned.aged.ids.nodup hn.ids, List.nodup_singleton _, ?_⟩
      rintro id hid _ hnew rfl
      obtain ⟨t, ht, rfl⟩ := List.mem_map.mp hid
      obtain hnew := List.mem_singleton.mp hnew
      exact absurd hnew (hold t ht).ne
    · intro t ht
      rw [hrows, List.mem_append, List.mem_singleton] at ht
      rw [hissues.nextToken]
      rcases ht with ht | rfl
      · exact Nat.lt_succ_of_lt (hold t ht)
      · exact Nat.lt_succ_self _

/-! ### Runs of committed statements -/

/-- The tables of signing in. -/
structure SignInTables where
  administrator : Option Administrator := none
  sessions : List SessionRow := []
  authTokens : List AuthToken := []
  nextToken : ℕ := 1

def Database.signIn (db : Database) : SignInTables :=
  ⟨db.administrator, db.sessions, db.authTokens, db.nextToken⟩

/-- The tables after a log of committed statements, newest first, each with its
    effect on what the one before has left. -/
inductive Commits (mac : Mac) : List Signed → SignInTables → Prop
  | nil : Commits mac [] {}
  | cons {cfg : Config} {x : Signed} {log : List Signed} (rest : Commits mac log x.before.signIn)
      (hrun : x.statement.run x.before = .ok (x.result, x.after)) (h : Effect mac cfg x) :
      Commits mac (x :: log) x.after.signIn

/-- Every run is one of committed statements, as far as signing in goes. -/
theorem signIn_commits {ticks : Instant → Instant → Prop} {config : Config} {c : Pool History Call}
    (h : (signIn mac ticks).Reachable config c) :
    Commits mac c.state.signed c.state.site.db.signIn := by
  refine signIn_invariant (P := fun h => Commits mac h.signed h.site.db.signIn) .nil ?_ h
  intro h h' hstep ih
  cases hstep with
  | idle hsigned hsame =>
    have htables : h'.site.db.signIn = h.site.db.signIn := by
      rw [Database.signIn, hsame.administrator, hsame.sessions, hsame.authTokens, hsame.nextToken]
      rfl
    rw [hsigned, htables]
    exact ih
  | restart config _ hsite =>
    subst hsite
    exact ih
  | commit x hsigned hrun hbefore hafter _ hfits =>
    rw [hsigned, ← hafter]
    exact .cons (hbefore ▸ ih) hrun (Signed.effect hrun hfits)

/-- The statement in the middle of a log has its effect on what those before it left. -/
theorem Commits.at {later earlier : List Signed} {s : SignInTables}
    (h : Commits mac (later ++ x :: earlier) s) :
    Commits mac earlier x.before.signIn ∧ x.statement.run x.before = .ok (x.result, x.after) ∧
      ∃ cfg, Effect mac cfg x := by
  induction later generalizing s with
  | nil =>
    cases h with
    | cons rest hrun heffect => exact ⟨rest, hrun, _, heffect⟩
  | cons y later ih =>
    cases h with
    | cons rest _ _ => exact ih rest

theorem Commits.numbered {log : List Signed} {s : SignInTables} (h : Commits mac log s) :
    (s.authTokens.map AuthToken.id).Nodup ∧ ∀ t ∈ s.authTokens, t.id < s.nextToken := by
  induction h with
  | nil => exact ⟨List.nodup_nil, by simp⟩
  | cons _ _ heffect ih =>
    obtain ⟨hids, hbelow⟩ := heffect.numbered ⟨ih.1, ih.2⟩
    exact ⟨hids, hbelow⟩

end Pgfy
