import Pgfy.SignIn.Journals
import Pgfy.SignIn.Sessions

/-! # Resetting the administrator

    A confirmed reset replaces the password and the factor, ends every session
    and uses up every step that is under way. What follows can only come from
    tokens issued after it, and a password that was read before it is bound to
    a hash that is never the administrator's again.
-/

namespace Pgfy

open Calendar Program

variable {mac : Mac} {cfg : Config} {log : List Signed} {s : SignInTables} {x : Signed}
  {t : AuthToken}

/-! ### Reading the log -/

/-- The password hash an enrolment brings. -/
def Payload.newHash : Payload → Option PasswordHash
  | .enrolment v =>
    match v.plain.kind with
    | .setup _ hash => some hash
    | .reset hash => some hash
    | .upgrade _ _ => none
  | _ => none

/-- The token is an enrolment for a reset. -/
def AuthToken.Resets (t : AuthToken) (hash : PasswordHash) : Prop :=
  ∃ v, t.payload = .enrolment v ∧ v.plain.kind = .reset hash

/-- The token a committed statement has used for a code. -/
def Signed.usedToken : Signed → Option AuthToken
  | ⟨_, .confirmPending hash _ _ _ _, _, _, before, _⟩ =>
    Table.find AuthToken.tokenHash hash before.authTokens
  | ⟨_, .confirmEnrolment hash _ _ _ _ _, _, _, before, _⟩ =>
    Table.find AuthToken.tokenHash hash before.authTokens
  | _ => none

/-- The reset token a confirmed reset came from. -/
def Signed.resetParent : Signed → Option ℕ
  | ⟨_, .confirmEnrolment hash _ _ _ _ _, .ok _, _, before, _⟩ =>
    (Table.find AuthToken.tokenHash hash before.authTokens).bind (fun t =>
      match t.payload with
      | .enrolment v =>
        match v.plain.kind with
        | .reset _ => t.parentID
        | _ => none
      | _ => none)
  | _ => none

/-- The number of the token a committed statement has issued. -/
def Signed.issuedID (x : Signed) : Option ℕ := x.statement.issued.map (fun _ => x.before.nextToken)

/-- The password hash a request has brought. -/
def Signed.brought : Signed → Option PasswordHash
  | ⟨_, .setup _ _ hash _ _ _, _, _, _, _⟩ => some hash
  | ⟨_, q, _, _, _, _⟩ => q.issued.bind (fun i => i.payload.newHash)

/-- The password hash a committed statement has given the administrator. -/
def Signed.introduced : Signed → Option PasswordHash
  | ⟨_, .setup _ _ hash _ _ _, _, _, _, _⟩ => some hash
  | ⟨_, .confirmEnrolment hash _ _ _ _ _, .ok _, _, before, _⟩ =>
    (Table.find AuthToken.tokenHash hash before.authTokens).bind (fun t => t.payload.newHash)
  | _ => none

/-- The value a committed statement has made known: that of a token, or of a session. -/
def Signed.tokenValue (x : Signed) : Option (Digest String) :=
  match x.statement.issued with
  | some i => some i.hash
  | none => x.opened.map SessionRow.tokenHash

/-- A session was opened, or the administrator's row is another one. -/
def Signed.Gains (x : Signed) : Prop :=
  x.opened ≠ none ∨ x.after.administrator ≠ x.before.administrator

/-- The number of the reset token issued last. -/
def lastReset (log : List Signed) : Option ℕ :=
  (log.find? (fun x => x.statement.issued.any (fun i => i.purpose = .reset))).bind Signed.issuedID

/-- The times at which tokens were issued, newest first. -/
def issueTimes (log : List Signed) : List Instant :=
  log.filterMap (fun x => x.statement.issued.map Issued.now)

/-! ### What a statement gains -/

/-- What a committed statement means for the administrator. -/
inductive Gain (x : Signed) : Prop
  | nothing (hadmin : x.after.administrator = x.before.administrator) (hopened : x.opened = none)
      (hnew : x.introduced = none) (hreset : x.resetParent = none)
      (hstays : x.statement.issued = none → Stays x.before.authTokens x.after.authTokens)
  | first (hnone : x.before.administrator = none) (a : Administrator)
      (ha : x.after.administrator = some a) (hnew : x.introduced = some a.passwordHash)
      (hreset : x.resetParent = none) (hstays : Stays x.before.authTokens x.after.authTokens)
  | factorless (a a' : Administrator) (ha : x.before.administrator = some a)
      (hless : a.totpSecretSealed = none) (ha' : x.after.administrator = some a')
      (hhash : a'.passwordHash = a.passwordHash) (hnew : x.introduced = none)
      (hreset : x.resetParent = none) (hstays : Stays x.before.authTokens x.after.authTokens)
  | code (a a' : Administrator) (t : AuthToken) (ht : x.usedToken = some t)
      (hmem : t ∈ x.before.authTokens) (hlive : t.consumedAt = none) (hp : t.purpose = .pending)
      (ha : x.before.administrator = some a)
      (hbound : ∃ scope, t.payload = .pending ⟨a.passwordHash⟩ scope)
      (ha' : x.after.administrator = some a') (hhash : a'.passwordHash = a.passwordHash)
      (hfactor : a'.totpSecretSealed = a.totpSecretSealed) (hnew : x.introduced = none)
      (hreset : x.resetParent = none) (hstays : Stays x.before.authTokens x.after.authTokens)
  | reset (a a' : Administrator) (t p : AuthToken) (ht : x.usedToken = some t)
      (hmem : t ∈ x.before.authTokens) (hlive : t.consumedAt = none) (hpurpose : t.purpose = .enrol)
      (ha : x.before.administrator = some a) (ha' : x.after.administrator = some a')
      (hpayload : t.Resets a'.passwordHash) (hfactor : a'.totpSecretSealed ≠ none)
      (hsessions : ∀ r ∈ x.after.sessions, x.opened = some r)
      (hp : p ∈ x.before.authTokens) (hparent : t.parentID = some p.id)
      (hreset : x.resetParent = some p.id) (hnewest : ∀ o ∈ x.before.authTokens,
        o.purpose = .reset → o.id ≤ p.id)
      (hkind : p.purpose = .reset) (hnew : x.introduced = some a'.passwordHash)
      (hused : (x.before.authTokens.map AuthToken.id).Nodup →
        Database.Exhausted x.after.authTokens)

theorem Gain.of_issues {i : Issued} {parent : Option ℕ} (hi : x.statement.issued = some i)
    (h : Issues x.before x.after i parent) (hopened : x.opened = none)
    (hnew : x.introduced = none) (hreset : x.resetParent = none) : Gain x :=
  .nothing h.administrator hopened hnew hreset (fun hnone => (nomatch hnone.symm.trans hi))

theorem Effect.gain (h : Effect mac cfg x) : Gain x := by
  cases h with
  | @quiet x hq hadmin _ hstays =>
    obtain ⟨thread, q, r, clock, before, after⟩ := x
    cases q <;> first
      | exact hq.elim
      | exact .nothing hadmin rfl rfl rfl (fun _ => hstays)
  | logout token => exact .nothing rfl rfl rfl rfl (fun _ => .refl _)
  | setupToken _ _ _ h | setupBegun _ _ _ _ _ _ _ _ _ _ h | upgradeBegun _ _ _ _ _ _ h
  | resetToken _ _ _ h | resetBegun _ _ _ _ _ _ _ _ h | pendingBegun _ _ _ h =>
    exact .of_issues rfl h rfl rfl rfl
  | setup _ _ _ _ _ _ hnone tokens hstays hafter =>
    subst hafter
    exact .first hnone _ rfl rfl rfl hstays
  | password _ _ _ _ a ha _ hless hafter =>
    subst hafter
    exact .factorless a a ha hless ha rfl rfl rfl (.refl _)
  | code hash sessionHash now code r a t ha _ hfind husable tokens hspent houtcome =>
    obtain ⟨hmem, -⟩ := Table.find_eq_some hfind
    cases houtcome with
    | rejected | refused secret _ e _ _ => exact .nothing rfl rfl rfl rfl (fun _ => hspent.1)
    | wrong secret _ _ hp =>
      refine .code a (a.countFailure now) t hfind hmem husable.2.1 husable.1 ha ⟨_, hp⟩ ?_ rfl
        rfl rfl rfl ?_
      · exact congrArg Database.administrator (Database.countFailure_same _ _ _)
      · rw [Database.countFailure_same]
        exact hspent.1
    | accepted secret _ hp step _ _ =>
      exact .code a _ t hfind hmem husable.2.1 husable.1 ha ⟨_, hp⟩ rfl rfl rfl rfl rfl hspent.1
  | enrol hash sessionHash requestID now code r t hfind husable tokens _ houtcome =>
    obtain ⟨hmem, -⟩ := Table.find_eq_some hfind
    cases houtcome with
    | refused e hstays => exact .nothing rfl rfl rfl rfl (fun _ => hstays)
    | setup c hv email passwordHash hk _ hnone hstays =>
      have hpayload := (verifyEnrolment_ok hv).1
      refine .first hnone _ rfl ?_ ?_ hstays
      · simp only [Signed.introduced, hfind, Option.bind_some, hpayload, Payload.newHash, hk]
      · simp only [Signed.resetParent, hfind, Option.bind_some, hpayload, hk]
    | upgrade c hv a ha email hk _ hless hstays =>
      have hpayload := (verifyEnrolment_ok hv).1
      refine .factorless a _ ha hless rfl rfl ?_ ?_ hstays
      · simp only [Signed.introduced, hfind, Option.bind_some, hpayload, Payload.newHash, hk]
      · simp only [Signed.resetParent, hfind, Option.bind_some, hpayload, hk]
    | reset c hv a ha passwordHash hk _ _ p hp hparent hkind hnewest hex =>
      have hpayload := (verifyEnrolment_ok hv).1
      refine .reset a _ t p hfind hmem husable.2.1 husable.1 ha rfl ⟨_, hpayload, hk⟩ (by simp)
        (fun r hr => ?_) hp hparent ?_ hnewest hkind ?_ hex
      · exact congrArg some (List.mem_singleton.mp hr).symm
      · simp only [Signed.resetParent, hfind, Option.bind_some, hpayload, hk, hparent]
      · simp only [Signed.introduced, hfind, Option.bind_some, hpayload, Payload.newHash, hk]

/-! ### Where tokens were issued -/

/-- The statement has issued the token. -/
def Signed.Issued (z : Signed) (t : AuthToken) : Prop :=
  ∃ i, z.statement.issued = some i ∧ t.id = z.before.nextToken ∧ t.purpose = i.purpose ∧
    t.payload = i.payload ∧ t.expiresAt = unix (i.now + i.purpose.ttl)

theorem Signed.Issued.later {z : Signed} {t t' : AuthToken} (h : z.Issued t) (hl : t.Later t') :
    z.Issued t' := by
  obtain ⟨i, hi, hid, hp, hpayload, hexpires⟩ := h
  exact ⟨i, hi, hl.id.trans hid, hl.purpose.trans hp, hl.payload.trans hpayload,
    hl.expiresAt.trans hexpires⟩

theorem Commits.issued (h : Commits mac log s) (ht : t ∈ s.authTokens) : ∃ z ∈ log, z.Issued t := by
  induction h generalizing t with
  | nil => cases ht
  | @cons cfg x log _ _ heffect ih =>
    rcases heffect.token ht with ⟨t₀, ht₀, hl⟩ | ⟨i, parent, hi, -, rfl⟩
    · obtain ⟨z, hz, hissued⟩ := ih ht₀
      exact ⟨z, List.mem_cons_of_mem _ hz, hissued.later hl⟩
    · exact ⟨x, List.mem_cons_self, i, hi, rfl, rfl, rfl, rfl⟩

/-- Numbers are handed out in order. -/
theorem Commits.issued_below (h : Commits mac log s) {z : Signed} (hz : z ∈ log) (ht : z.Issued t) :
    t.id < s.nextToken := by
  induction h with
  | nil => cases hz
  | @cons cfg x log _ _ heffect ih =>
    rcases List.mem_cons.mp hz with rfl | hz
    · obtain ⟨i, hi, hid, -⟩ := ht
      obtain ⟨parent, hissues, -⟩ := heffect.issues hi
      rw [hid, show z.after.signIn.nextToken = _ from hissues.nextToken]
      exact Nat.lt_succ_self _
    · exact lt_of_lt_of_le (ih hz) heffect.nextToken_le

/-- Before there is an administrator nothing is reset. -/
theorem Commits.unreset (h : Commits mac log s) (hnone : s.administrator = none)
    (ht : t ∈ s.authTokens) : t.purpose ≠ .reset ∧ ∀ hash, ¬ t.Resets hash := by
  induction h generalizing t with
  | nil => cases ht
  | @cons cfg x log _ _ heffect ih =>
    have hbefore : x.before.administrator = none := by
      cases heffect.gain with
      | nothing hadmin => exact hadmin ▸ hnone
      | first hnone => exact hnone
      | factorless _ _ _ _ ha' | code _ _ _ _ _ _ _ _ _ ha' | reset _ _ _ _ _ _ _ _ _ ha' =>
        exact absurd (ha'.symm.trans hnone) (by simp)
    rcases heffect.token ht with ⟨t₀, ht₀, hl⟩ | ⟨i, parent, hi, hdescends, rfl⟩
    · obtain ⟨hpurpose, hresets⟩ := ih hbefore ht₀
      refine ⟨hl.purpose ▸ hpurpose, fun hash ⟨v, hv, hk⟩ => hresets hash ⟨v, ?_, hk⟩⟩
      exact hl.payload ▸ hv
    · refine ⟨fun hreset => hdescends.reset hreset hbefore, fun hash ⟨v, hv, hk⟩ => ?_⟩
      obtain ⟨-, p, hp, -, hreset, -⟩ := hdescends.kind v hash hv hk
      exact (ih hbefore hp).1 hreset

theorem Commits.resets_enrol (h : Commits mac log s) (ht : t ∈ s.authTokens) {hash : PasswordHash}
    (hr : t.Resets hash) : t.purpose = .enrol := by
  induction h generalizing t with
  | nil => cases ht
  | @cons cfg x log _ _ heffect ih =>
    obtain ⟨v, hv, hk⟩ := hr
    rcases heffect.token ht with ⟨t₀, ht₀, hl⟩ | ⟨i, parent, hi, hdescends, rfl⟩
    · exact hl.purpose.trans (ih ht₀ ⟨v, hl.payload ▸ hv, hk⟩)
    · exact (hdescends.kind v hash hv hk).1

/-! ### The administrator's password hashes -/

/-- The hashes the administrator has had, newest first, are brought by requests
    and never come back. -/
structure HashesKept (log : List Signed) (s : SignInTables) : Prop where
  current : ∀ a, s.administrator = some a → ∃ rest,
    log.filterMap Signed.introduced = a.passwordHash :: rest
  unused : s.administrator = none → log.filterMap Signed.introduced = []
  nodup : (log.filterMap Signed.introduced).Nodup
  brought : ∀ hash ∈ log.filterMap Signed.introduced, hash ∈ log.filterMap Signed.brought
  tokens : ∀ t ∈ s.authTokens, ∀ hash, t.payload.newHash = some hash →
    hash ∈ log.filterMap Signed.brought
  waiting : ∀ t ∈ s.authTokens, t.consumedAt = none → ∀ hash, t.Resets hash →
    hash ∉ log.filterMap Signed.introduced

theorem AuthToken.Resets.newHash {hash : PasswordHash} (h : t.Resets hash) :
    t.payload.newHash = some hash := by
  obtain ⟨v, hv, hk⟩ := h
  rw [hv, Payload.newHash, hk]

theorem brought_of_issued {i : Pgfy.Issued} (hi : x.statement.issued = some i) :
    x.brought = i.payload.newHash := by
  obtain ⟨thread, q, r, clock, before, after⟩ := x
  cases q with
  | setup => cases hi
  | _ => exact congrArg (Option.bind · (fun i => i.payload.newHash)) hi

/-- A hash the administrator is given was brought just now or by a token. -/
theorem introduced_brought {hash : PasswordHash} (h : x.introduced = some hash) :
    x.brought = some hash ∨ ∃ t ∈ x.before.authTokens, t.payload.newHash = some hash := by
  obtain ⟨thread, q, r, clock, before, after⟩ := x
  cases q with
  | setup => exact Or.inl h
  | confirmEnrolment =>
    cases r with
    | error e => cases h
    | ok email =>
      obtain ⟨t, hfind, hnew⟩ := Option.bind_eq_some_iff.mp h
      exact Or.inr ⟨t, (Table.find_eq_some hfind).1, hnew⟩
  | _ => cases h

theorem Commits.hashesKept (h : Commits mac log s)
    (hfresh : (log.filterMap Signed.brought).Nodup) : HashesKept log s := by
  induction h with
  | nil => exact ⟨by simp, fun _ => rfl, List.nodup_nil, by simp, by simp, by simp⟩
  | @cons cfg x log rest hrun heffect ih =>
    have hsub : (log.filterMap Signed.brought).Sublist ((x :: log).filterMap Signed.brought) :=
      (List.sublist_cons_self x log).filterMap _
    obtain ⟨hcurrent, hunused, hnodup, hbrought, htokens, hwaiting⟩ := ih (hsub.nodup hfresh)
    have htokens' : ∀ t ∈ x.after.authTokens, ∀ hash, t.payload.newHash = some hash →
        hash ∈ (x :: log).filterMap Signed.brought := by
      intro t ht hash hnew
      rcases heffect.token ht with ⟨t₀, ht₀, hl⟩ | ⟨i, parent, hi, -, rfl⟩
      · exact hsub.subset (htokens t₀ ht₀ hash (hl.payload ▸ hnew))
      · exact List.mem_filterMap.mpr
          ⟨x, List.mem_cons_self, (brought_of_issued hi).trans hnew⟩
    have hbrought' : ∀ hash, x.introduced = some hash →
        hash ∈ (x :: log).filterMap Signed.brought := by
      intro hash hnew
      rcases introduced_brought hnew with hx | ⟨t, ht, hpayload⟩
      · exact List.mem_filterMap.mpr ⟨x, List.mem_cons_self, hx⟩
      · exact hsub.subset (htokens t ht hash hpayload)
    -- a statement after which the hash is the same
    have hsame : x.introduced = none →
        (∀ a', x.after.administrator = some a' → ∃ a, x.before.administrator = some a ∧
          a'.passwordHash = a.passwordHash) →
        (x.after.administrator = none → x.before.administrator = none) →
        HashesKept (x :: log) x.after.signIn := by
      intro hnew hadmin hnone
      have hlist : (x :: log).filterMap Signed.introduced = log.filterMap Signed.introduced :=
        List.filterMap_cons_none hnew
      refine ⟨fun a' ha' => ?_, fun h => ?_, hlist ▸ hnodup, fun hash hmem => ?_, htokens', ?_⟩
      · obtain ⟨a, ha, hhash⟩ := hadmin a' ha'
        rw [hlist, hhash]
        exact hcurrent a ha
      · rw [hlist]
        exact hunused (hnone h)
      · exact hsub.subset (hbrought hash (hlist ▸ hmem))
      · rw [hlist]
        intro t ht hlive hash hresets
        rcases heffect.token ht with ⟨t₀, ht₀, hl⟩ | ⟨i, parent, hi, -, rfl⟩
        · obtain ⟨v, hv, hk⟩ := hresets
          refine hwaiting t₀ ht₀ ?_ hash ⟨v, hl.payload ▸ hv, hk⟩
          by_contra hc
          exact hl.consumed hc hlive
        · -- a hash that has just been brought is none the administrator has had
          intro hmem
          have hx : x.brought = some hash := (brought_of_issued hi).trans hresets.newHash
          rw [List.filterMap_cons_some hx, List.nodup_cons] at hfresh
          exact hfresh.1 (hbrought hash hmem)
    cases heffect.gain with
    | nothing hadmin _ hnew =>
      exact hsame hnew (fun a' ha' => ⟨a', hadmin ▸ ha', rfl⟩) (fun h => hadmin ▸ h)
    | factorless a a' ha _ ha' hhash hnew | code a a' _ _ _ _ _ ha _ ha' hhash _ hnew =>
      refine hsame hnew (fun b hb => ⟨a, ha, ?_⟩) (fun h => absurd (ha'.symm.trans h) (by simp))
      rw [← Option.some.inj (ha'.symm.trans hb), hhash]
    | first hnone a ha hnew _ hstays =>
      have hlist : (x :: log).filterMap Signed.introduced = [a.passwordHash] := by
        rw [List.filterMap_cons_some hnew, hunused hnone]
      refine ⟨fun b hb => ⟨[], ?_⟩, fun h => absurd (ha.symm.trans h) (by simp), ?_, ?_, htokens',
        fun t ht _ hash hresets => ?_⟩
      · rw [hlist, Option.some.inj (ha.symm.trans hb)]
      · rw [hlist]
        exact List.nodup_singleton _
      · intro hash hmem
        rw [hlist, List.mem_singleton] at hmem
        exact hbrought' hash (hmem ▸ hnew)
      · obtain ⟨t₀, ht₀, hl⟩ := hstays.aged.mem ht
        obtain ⟨v, hv, hk⟩ := hresets
        exact absurd ⟨v, hl.payload ▸ hv, hk⟩ ((rest.unreset hnone ht₀).2 hash)
    | reset a a' t p _ hmem hlive _ _ ha' hpayload _ _ _ _ _ _ _ hnew hused =>
      have hlist : (x :: log).filterMap Signed.introduced =
          a'.passwordHash :: log.filterMap Signed.introduced := List.filterMap_cons_some hnew
      refine ⟨fun b hb => ⟨log.filterMap Signed.introduced, ?_⟩,
        fun h => absurd (ha'.symm.trans h) (by simp), ?_, ?_, htokens',
        fun o ho hopen hash hresets => ?_⟩
      · rw [hlist, Option.some.inj (ha'.symm.trans hb)]
      · rw [hlist, List.nodup_cons]
        exact ⟨hwaiting t hmem hlive _ hpayload, hnodup⟩
      · intro hash hin
        rw [hlist, List.mem_cons] at hin
        rcases hin with rfl | hin
        · exact hbrought' _ hnew
        · exact hsub.subset (hbrought hash hin)
      · -- no enrolment is left that has not been used up
        have henrol := (Commits.cons rest hrun heffect).resets_enrol ho hresets
        rcases hused rest.numbered.1 o ho with hsetup | hc
        · rw [henrol] at hsetup
          cases hsetup
        · exact absurd hopen hc

/-! ### After a reset -/

/-- What holds after the reset `n`: the tokens from before it are of no use, and
    what is gained comes from tokens issued since. -/
structure AfterReset (n : Signed) (later : List Signed) (s : SignInTables) : Prop where
  factor : ∃ a, s.administrator = some a ∧ a.totpSecretSealed ≠ none
  next : n.before.nextToken ≤ s.nextToken
  old : ∀ t ∈ s.authTokens, t.id < n.before.nextToken → t.purpose = .setup ∨ t.consumedAt ≠ none
  parents : ∀ t ∈ s.authTokens, n.before.nextToken ≤ t.id → ∀ p, t.parentID = some p →
    n.before.nextToken ≤ p
  sessions : ∀ r ∈ s.sessions, ∃ y ∈ n :: later, y.opened = some r
  gains : ∀ y ∈ later, y.Gains → ∃ t ∈ y.before.authTokens, y.usedToken = some t ∧
    n.before.nextToken ≤ t.id ∧ (∀ p, t.parentID = some p → n.before.nextToken ≤ p) ∧
    ((∃ hash, t.Resets hash) ∨ ∃ a scope, y.before.administrator = some a ∧
      t.payload = .pending ⟨a.passwordHash⟩ scope)

theorem issued_of_resetParent (h : x.resetParent ≠ none) : x.statement.issued = none := by
  obtain ⟨thread, q, r, clock, before, after⟩ := x
  cases q <;> first | rfl | exact absurd rfl h

/-- What is left of the old tokens has been used up. -/
theorem AfterReset.le_of_live {n : Signed} {later : List Signed} (h : AfterReset n later s)
    (ht : t ∈ s.authTokens) (hlive : t.consumedAt = none) (hpurpose : t.purpose ≠ .setup) :
    n.before.nextToken ≤ t.id := by
  by_contra hlt
  rcases h.old t ht (not_le.mp hlt) with hsetup | hc
  · exact hpurpose hsetup
  · exact hc hlive

theorem Commits.reset_now {n : Signed} {earlier : List Signed} (h : Commits mac (n :: earlier) s)
    (hn : n.resetParent ≠ none) : AfterReset n [] s := by
  cases h with
  | cons rest _ heffect =>
    cases heffect.gain with
    | nothing _ _ _ hreset | first _ _ _ _ hreset | factorless _ _ _ _ _ _ _ hreset
    | code _ _ _ _ _ _ _ _ _ _ _ _ _ hreset =>
      exact absurd hreset hn
    | reset a a' t p _ _ _ _ _ ha' _ hfactor hsessions _ _ _ _ _ _ hused =>
      have hex := hused rest.numbered.1
      refine ⟨⟨a', ha', hfactor⟩, heffect.nextToken_le, fun o ho _ => hex o ho, ?_, ?_, by simp⟩
      · intro o ho hle
        rcases heffect.token ho with ⟨o₀, ho₀, hl⟩ | ⟨i, parent, hi, -⟩
        · exact absurd (rest.numbered.2 o₀ ho₀) (not_lt.mpr (hl.id ▸ hle))
        · rw [issued_of_resetParent hn] at hi
          cases hi
      · exact fun r hr => ⟨n, List.mem_cons_self, hsessions r hr⟩

theorem AfterReset.step {n y : Signed} {later : List Signed}
    (h : AfterReset n later y.before.signIn) (heffect : Effect mac cfg y) :
    AfterReset n (y :: later) y.after.signIn := by
  obtain ⟨a₀, ha₀, hfactor⟩ := h.factor
  have hsame : ∀ {a : Administrator}, y.before.administrator = some a → a = a₀ := fun ha =>
    Option.some.inj (ha.symm.trans ha₀)
  have hold : ∀ t ∈ y.after.authTokens, t.id < n.before.nextToken →
      t.purpose = .setup ∨ t.consumedAt ≠ none := by
    intro t ht hlt
    rcases heffect.token ht with ⟨t₀, ht₀, hl⟩ | ⟨i, parent, -, -, rfl⟩
    · exact (h.old t₀ ht₀ (hl.id ▸ hlt)).imp hl.purpose.trans hl.consumed
    · exact absurd hlt (not_lt.mpr h.next)
  have hparents : ∀ t ∈ y.after.authTokens, n.before.nextToken ≤ t.id → ∀ p,
      t.parentID = some p → n.before.nextToken ≤ p := by
    intro t ht hle p hp
    rcases heffect.token ht with ⟨t₀, ht₀, hl⟩ | ⟨i, parent, -, hdescends, rfl⟩
    · rcases hl.parentID with hsame | hnone
      · exact h.parents t₀ ht₀ (hl.id ▸ hle) p (hsame ▸ hp)
      · rw [hnone] at hp
        cases hp
    · -- the parent of a new token had not been used up
      obtain ⟨o, ho, rfl, hlive, hreset | hnone⟩ := hdescends.live p hp
      · exact h.le_of_live ho hlive (by simp [hreset])
      · exact absurd (hnone.symm.trans ha₀) (by simp)
  have hsessions : ∀ r ∈ y.after.sessions, ∃ z ∈ n :: y :: later, z.opened = some r := by
    intro r hr
    rcases heffect.session_row hr with hr | hopened
    · obtain ⟨z, hz, hopened⟩ := h.sessions r hr
      refine ⟨z, ?_, hopened⟩
      rcases List.mem_cons.mp hz with rfl | hz
      · exact List.mem_cons_self
      · exact List.mem_cons_of_mem _ (List.mem_cons_of_mem _ hz)
    · exact ⟨y, by simp, hopened⟩
  have hnext := h.next.trans heffect.nextToken_le
  -- what is left is the new statement
  suffices hy : (∃ a, y.after.administrator = some a ∧ a.totpSecretSealed ≠ none) ∧
      (y.Gains → ∃ t ∈ y.before.authTokens, y.usedToken = some t ∧ n.before.nextToken ≤ t.id ∧
        (∀ p, t.parentID = some p → n.before.nextToken ≤ p) ∧
        ((∃ hash, t.Resets hash) ∨ ∃ a scope, y.before.administrator = some a ∧
          t.payload = .pending ⟨a.passwordHash⟩ scope)) by
    refine ⟨hy.1, hnext, hold, hparents, hsessions, fun z hz => ?_⟩
    rcases List.mem_cons.mp hz with rfl | hz
    · exact hy.2
    · exact h.gains z hz
  cases heffect.gain with
  | nothing hadmin hopened =>
    refine ⟨⟨a₀, hadmin.trans ha₀, hfactor⟩, fun hgains => ?_⟩
    rcases hgains with hg | hg
    · exact absurd hopened hg
    · exact absurd hadmin hg
  | first hnone => exact absurd (hnone.symm.trans ha₀) (by simp)
  | factorless a a' ha hless => exact absurd (hsame ha ▸ hless) hfactor
  | code a a' t ht hmem hlive hp ha hbound ha' hhash hkeep =>
    have hle := h.le_of_live hmem hlive (by simp [hp])
    obtain ⟨scope, hpayload⟩ := hbound
    refine ⟨⟨a', ha', by rw [hkeep, hsame ha]; exact hfactor⟩, fun _ => ⟨t, hmem, ht, hle, ?_, ?_⟩⟩
    · exact h.parents t hmem hle
    · exact Or.inr ⟨a, scope, ha, hpayload⟩
  | reset a a' t p ht hmem hlive hpurpose ha ha' hpayload hnew =>
    have hle := h.le_of_live hmem hlive (by simp [hpurpose])
    exact ⟨⟨a', ha', hnew⟩, fun _ =>
      ⟨t, hmem, ht, hle, h.parents t hmem hle, Or.inl ⟨_, hpayload⟩⟩⟩

theorem Commits.afterReset {n : Signed} {later earlier : List Signed}
    (h : Commits mac (later ++ n :: earlier) s) (hn : n.resetParent ≠ none) :
    AfterReset n later s := by
  induction later generalizing s with
  | nil => exact h.reset_now hn
  | cons y later ih =>
    cases h with
    | cons rest _ heffect => exact (ih rest).step heffect

/-! ### The most recent reset token -/

theorem lastReset_issued {i : Pgfy.Issued} (hi : x.statement.issued = some i)
    (hp : i.purpose = .reset) : lastReset (x :: log) = some x.before.nextToken := by
  rw [lastReset, List.find?_cons_of_pos (by simp [hi, hp]), Option.bind_some, Signed.issuedID, hi]
  rfl

theorem lastReset_other (h : ∀ i, x.statement.issued = some i → i.purpose ≠ .reset) :
    lastReset (x :: log) = lastReset log := by
  rw [lastReset, List.find?_cons_of_neg, lastReset]
  cases hi : x.statement.issued with
  | none => simp
  | some i => simpa using h i hi

/-- A reset token replaces any earlier one. -/
theorem Effect.replaces (h : Effect mac cfg x) {i : Pgfy.Issued} (hi : x.statement.issued = some i)
    (hp : i.purpose = .reset) :
    ∀ t ∈ x.after.authTokens, t.purpose = .reset → t.consumedAt = none →
      t.id = x.before.nextToken := by
  cases h with
  | quiet hq => exact absurd (hq.issued.symm.trans hi) (by simp)
  | resetToken _ _ _ _ hconsumed => exact hconsumed
  | _ => cases hi <;> cases hp

/-- The enrolments for a reset that are under way come from the last reset
    token, or that token is there and outlives them. -/
structure ResetsKept (log : List Signed) (s : SignInTables) : Prop where
  live : ∀ t ∈ s.authTokens, t.purpose = .reset → t.consumedAt = none →
    lastReset log = some t.id
  bound : ∀ t ∈ s.authTokens, t.purpose = .reset → ∃ r, lastReset log = some r ∧ t.id ≤ r
  begun : ∀ t ∈ s.authTokens, t.consumedAt = none → ∀ hash p, t.Resets hash →
    t.parentID = some p → lastReset log = some p ∨ ∃ o ∈ s.authTokens, o.purpose = .reset ∧
      lastReset log = some o.id ∧ t.expiresAt ≤ o.expiresAt

theorem AuthToken.Later.live {t t' : AuthToken} (h : t.Later t') (hlive : t'.consumedAt = none) :
    t.consumedAt = none := by
  by_contra hc
  exact h.consumed hc hlive

theorem AuthToken.Later.parent {t t' : AuthToken} (h : t.Later t') {p : ℕ}
    (hp : t'.parentID = some p) : t.parentID = some p := by
  rcases h.parentID with hsame | hnone
  · exact hsame ▸ hp
  · rw [hnone] at hp
    cases hp

theorem AuthToken.Resets.of_later {t t' : AuthToken} {hash : PasswordHash} (hl : t.Later t')
    (h : t'.Resets hash) : t.Resets hash := by
  obtain ⟨v, hv, hk⟩ := h
  exact ⟨v, hl.payload ▸ hv, hk⟩

theorem ResetsKept.stays (h : ResetsKept log x.before.signIn) (hi : x.statement.issued = none)
    (hstays : Stays x.before.authTokens x.after.authTokens) :
    ResetsKept (x :: log) x.after.signIn := by
  have hlast : lastReset (x :: log) = lastReset log :=
    lastReset_other (fun i h => absurd (hi.symm.trans h) (by simp))
  refine ⟨fun t ht hp hlive => ?_, fun t ht hp => ?_, fun t ht hlive hash p hresets hparent => ?_⟩
  · obtain ⟨t₀, ht₀, hl⟩ := hstays.aged.mem ht
    rw [hlast, hl.id]
    exact h.live t₀ ht₀ (hl.purpose ▸ hp) (hl.live hlive)
  · obtain ⟨t₀, ht₀, hl⟩ := hstays.aged.mem ht
    rw [hlast, hl.id]
    exact h.bound t₀ ht₀ (hl.purpose ▸ hp)
  · obtain ⟨t₀, ht₀, hl⟩ := hstays.aged.mem ht
    rw [hlast, hl.expiresAt]
    refine (h.begun t₀ ht₀ (hl.live hlive) hash p (hresets.of_later hl)
      (hl.parent hparent)).imp_right ?_
    rintro ⟨o, ho, hop, hid, hle⟩
    obtain ⟨o', ho', hlo⟩ := hstays.kept o ho
    exact ⟨o', ho', hlo.purpose.trans hop, hlo.id ▸ hid, hlo.expiresAt ▸ hle⟩

/-- After a reset no enrolment and no reset token is left to use. -/
theorem ResetsKept.exhausted (h : ResetsKept log x.before.signIn)
    (hafter : Commits mac (x :: log) x.after.signIn) (hi : x.statement.issued = none)
    (haged : Aged x.before.authTokens x.after.authTokens)
    (hex : Database.Exhausted x.after.authTokens) : ResetsKept (x :: log) x.after.signIn := by
  have hused : ∀ t ∈ x.after.authTokens, t.purpose ≠ .setup → t.consumedAt ≠ none :=
    fun t ht hp => (hex t ht).resolve_left hp
  refine ⟨fun t ht hp hlive => ?_, fun t ht hp => ?_, fun t ht hlive hash p hresets _ => ?_⟩
  · exact absurd hlive (hused t ht (by simp [hp]))
  · obtain ⟨t₀, ht₀, hl⟩ := haged.mem ht
    rw [lastReset_other (fun i h => absurd (hi.symm.trans h) (by simp)), hl.id]
    exact h.bound t₀ ht₀ (hl.purpose ▸ hp)
  · exact absurd hlive (hused t ht (by simp [hafter.resets_enrol ht hresets]))

theorem ResetsKept.issues {i : Pgfy.Issued} (h : ResetsKept log x.before.signIn)
    (rest : Commits mac log x.before.signIn) (heffect : Effect mac cfg x)
    (hi : x.statement.issued = some i) (hnewest : ∀ t ∈ issueTimes log, i.now ≥ t) :
    ResetsKept (x :: log) x.after.signIn := by
  obtain ⟨parent, hissues, hdescends⟩ := heffect.issues hi
  obtain ⟨tokens, hpruned, -, hrows⟩ := hissues.rows
  change x.after.signIn.authTokens = _ at hrows
  have hnew : i.row x.before parent ∈ x.after.signIn.authTokens := by
    rw [hrows]
    simp
  by_cases hp : i.purpose = .reset
  · have hlast : lastReset (x :: log) = some x.before.nextToken := lastReset_issued hi hp
    have hbelow : ∀ t ∈ x.after.authTokens, t.id ≤ x.before.nextToken := by
      intro t ht
      rcases heffect.token ht with ⟨t₀, ht₀, hl⟩ | ⟨_, _, _, _, rfl⟩
      · exact hl.id ▸ (rest.numbered.2 t₀ ht₀).le
      · exact le_rfl
    refine ⟨fun t ht hreset hlive => ?_, fun t ht _ => ⟨_, hlast, hbelow t ht⟩,
      fun t ht _ hash p hresets _ => Or.inr ⟨_, hnew, hp, hlast, ?_⟩⟩
    · rw [hlast, heffect.replaces hi hp t ht hreset hlive]
    · -- an enrolment was begun before, and does not live as long
      rcases heffect.token ht with ⟨t₀, ht₀, hl⟩ | ⟨i', _, hi', hdesc', rfl⟩
      · have henrol := rest.resets_enrol ht₀ (hresets.of_later hl)
        obtain ⟨z, hz, j, hj, -, hpurpose, -, hexpires⟩ := rest.issued ht₀
        have hle : j.now ≤ i.now := hnewest _
          (List.mem_filterMap.mpr ⟨z, hz, by rw [hj]; rfl⟩)
        rw [hl.expiresAt, hexpires, ← hpurpose, henrol]
        show unix (j.now + enrolTTL) ≤ unix (i.now + i.purpose.ttl)
        rw [hp]
        exact unix_mono (add_le_add hle (by decide))
      · obtain rfl : i = i' := Option.some.inj (hi.symm.trans hi')
        obtain ⟨v, hv, hk⟩ := hresets
        exact absurd (hp.symm.trans (hdesc'.kind v hash hv hk).1) (by simp)
  · have hlast : lastReset (x :: log) = lastReset log := by
      refine lastReset_other (fun i' hi' => ?_)
      obtain rfl : i = i' := Option.some.inj (hi.symm.trans hi')
      exact hp
    refine ⟨fun t ht hreset hlive => ?_, fun t ht hreset => ?_,
      fun t ht hlive hash p hresets hparent => ?_⟩ <;> rw [hlast] <;>
      rw [hrows, List.mem_append, List.mem_singleton] at ht
    · rcases ht with ht | rfl
      · obtain ⟨t₀, ht₀, hl⟩ := hpruned.aged.mem ht
        rw [hl.id]
        exact h.live t₀ ht₀ (hl.purpose ▸ hreset) (hl.live hlive)
      · exact absurd hreset hp
    · rcases ht with ht | rfl
      · obtain ⟨t₀, ht₀, hl⟩ := hpruned.aged.mem ht
        rw [hl.id]
        exact h.bound t₀ ht₀ (hl.purpose ▸ hreset)
      · exact absurd hreset hp
    · rcases ht with ht | rfl
      · obtain ⟨t₀, ht₀, hl⟩ := hpruned.aged.mem ht
        refine (h.begun t₀ ht₀ (hl.live hlive) hash p (hresets.of_later hl)
          (hl.parent hparent)).imp_right ?_
        rintro ⟨o, ho, hop, hid, hle⟩
        -- pruning the reset token would have pruned the enrolment as well
        have hkept : unix (i.now - 24 * hour) ≤ o.expiresAt :=
          (hpruned.live t ht).trans (hl.expiresAt ▸ hle)
        obtain ⟨o', ho', hlo⟩ := hpruned.kept o ho hkept
        refine ⟨o', ?_, hlo.purpose.trans hop, hlo.id ▸ hid, ?_⟩
        · rw [hrows]
          exact List.mem_append_left _ ho'
        · rw [hl.expiresAt, hlo.expiresAt]
          exact hle
      · obtain ⟨v, hv, hk⟩ := hresets
        obtain ⟨-, o, ho, hpar, hop, holive⟩ := hdescends.kind v hash hv hk
        left
        have heq : parent = some p := hparent
        rw [h.live o ho hop holive, ← hpar, heq]

theorem issueTimes_none (hi : x.statement.issued = none) :
    issueTimes (x :: log) = issueTimes log := by
  simp [issueTimes, hi]

theorem issueTimes_some {i : Pgfy.Issued} (hi : x.statement.issued = some i) :
    issueTimes (x :: log) = i.now :: issueTimes log := by
  simp [issueTimes, hi]

theorem Commits.resetsKept (h : Commits mac log s)
    (htimes : (issueTimes log).Pairwise (· ≥ ·)) : ResetsKept log s := by
  induction h with
  | nil => exact ⟨by simp, by simp, by simp⟩
  | @cons cfg x log rest hrun heffect ih =>
    cases hi : x.statement.issued with
    | none =>
      have hkept := ih (issueTimes_none hi ▸ htimes)
      cases heffect.gain with
      | nothing _ _ _ _ hstays => exact hkept.stays hi (hstays hi)
      | first _ _ _ _ _ hstays | factorless _ _ _ _ _ _ _ _ hstays
      | code _ _ _ _ _ _ _ _ _ _ _ _ _ _ hstays =>
        exact hkept.stays hi hstays
      | reset _ _ _ _ _ _ _ _ _ _ _ _ _ _ _ _ _ _ _ hused =>
        exact hkept.exhausted (Commits.cons rest hrun heffect) hi (heffect.aged hi).1
          (hused rest.numbered.1)
    | some i =>
      rw [issueTimes_some hi, List.pairwise_cons] at htimes
      exact (ih htimes.2).issues rest heffect hi htimes.1

theorem Effect.last_reset (heffect : Effect mac cfg x) (h : ResetsKept log x.before.signIn)
    (hx : x.resetParent ≠ none) : x.resetParent = lastReset log := by
  cases heffect.gain with
  | nothing _ _ _ hreset | first _ _ _ _ hreset | factorless _ _ _ _ _ _ _ hreset
  | code _ _ _ _ _ _ _ _ _ _ _ _ _ hreset =>
    exact absurd hreset hx
  | reset a a' t p _ hmem hlive _ _ _ hpayload _ _ hp hparent hreset hnewest hkind =>
    rw [hreset]
    rcases h.begun t hmem hlive _ p.id hpayload hparent with hlast | ⟨o, ho, hop, hlast, -⟩
    · exact hlast.symm
    · -- the token the enrolment came from is the newest there is
      obtain ⟨r, hr, hle⟩ := h.bound p hp hkind
      obtain rfl : o.id = r := Option.some.inj (hlast.symm.trans hr)
      rw [hlast, le_antisymm hle (hnewest o ho hop)]

/-! ### Password checks that were under way -/

theorem Commits.session_opened (h : Commits mac log s) {r : SessionRow} (hr : r ∈ s.sessions) :
    ∃ z ∈ log, z.opened = some r := by
  induction h with
  | nil => cases hr
  | @cons cfg x log _ _ heffect ih =>
    rcases heffect.session_row hr with hr | hopened
    · obtain ⟨z, hz, hopened⟩ := ih hr
      exact ⟨z, List.mem_cons_of_mem _ hz, hopened⟩
    · exact ⟨x, List.mem_cons_self, hopened⟩

theorem tokenValue_opened {r : SessionRow} (h : x.opened = some r) :
    x.tokenValue = some r.tokenHash := by
  have hi : x.statement.issued = none := by
    obtain ⟨thread, q, r, clock, before, after⟩ := x
    cases q <;> first | rfl | cases h
  rw [Signed.tokenValue, hi, h]
  rfl

/-- What a password that was read is: the administrator's. -/
theorem passwordRead_current {hash : PasswordHash}
    (hrun : x.statement.run x.before = .ok (x.result, x.after))
    (h : passwordRead x.exchange = some hash) :
    ∃ a, x.before.administrator = some a ∧ a.passwordHash = hash := by
  obtain ⟨thread, q, r, clock, before, after⟩ := x
  cases q with
  | password email =>
    have hresult : before.password email = r := congrArg Prod.fst (Except.ok.inj hrun)
    cases r with
    | none => cases h
    | some hash' =>
      cases h
      obtain ⟨a, ha, hhash⟩ := Option.map_eq_some_iff.mp hresult
      exact ⟨a, (Option.filter_eq_some_iff.mp ha).1, hhash⟩
  | _ => cases h

/-- The request that brought an enrolment for a reset began one, and one that
    brought a password step has passed that password. -/
theorem Effect.issuer (h : Effect mac cfg x) (ht : x.Issued t) :
    (∀ hash, t.Resets hash → beginsReset x.exchange = true) ∧
      ∀ hash scope, t.payload = .pending ⟨hash⟩ scope → passwordPassed x.exchange = some hash := by
  obtain ⟨i, hi, -, -, hpayload, -⟩ := ht
  constructor
  · rintro hash ⟨v, hv, hk⟩
    rw [hpayload] at hv
    cases h with
    | quiet hq => exact absurd (hq.issued.symm.trans hi) (by simp)
    | setupToken | resetToken | pendingBegun =>
      cases hi
      cases hv
    | setupBegun | upgradeBegun =>
      cases hi
      cases hv
      cases hk
    | resetBegun => rfl
    | _ => cases hi
  · intro hash scope hv
    rw [hpayload] at hv
    cases h with
    | quiet hq => exact absurd (hq.issued.symm.trans hi) (by simp)
    | pendingBegun =>
      cases hi
      cases hv
      rfl
    | setupToken | resetToken | setupBegun | upgradeBegun | resetBegun =>
      cases hi
      cases hv
    | _ => cases hi

theorem Commits.effect_of_mem (h : Commits mac log s) (hx : x ∈ log) : ∃ cfg, Effect mac cfg x := by
  obtain ⟨later, earlier, rfl⟩ := List.append_of_mem hx
  exact h.at.2.2

/-- A hash the administrator had before a reset is not theirs after it. -/
theorem Commits.old_hash {n : Signed} {later earlier older : List Signed}
    (h : Commits mac (later ++ n :: earlier) s) (hn : n.resetParent ≠ none)
    (hfresh : ((later ++ n :: earlier).filterMap Signed.brought).Nodup) {a : Administrator}
    (ha : s.administrator = some a) {s₀ : SignInTables} (h₀ : Commits mac older s₀)
    (holder : older <:+ earlier) {a₀ : Administrator} (ha₀ : s₀.administrator = some a₀) :
    a.passwordHash ≠ a₀.passwordHash := by
  have hnodup := (h.hashesKept hfresh).nodup
  obtain ⟨rest, hcurrent⟩ := (h.hashesKept hfresh).current a ha
  obtain ⟨new, hnew⟩ : ∃ hash, n.introduced = some hash := by
    obtain ⟨-, -, cfg, heffect⟩ := h.at
    cases heffect.gain with
    | nothing _ _ _ hreset | factorless _ _ _ _ _ _ _ hreset
    | code _ _ _ _ _ _ _ _ _ _ _ _ _ hreset =>
      exact absurd hreset hn
    | first _ _ _ hnew | reset _ _ _ _ _ _ _ _ _ _ _ _ _ _ _ _ _ _ hnew => exact ⟨_, hnew⟩
  have hbefore : (older.filterMap Signed.brought).Nodup := by
    refine List.Nodup.sublist ?_ hfresh
    exact (holder.sublist.trans ((List.sublist_cons_self n earlier).trans
      (List.sublist_append_right later _))).filterMap _
  obtain ⟨rest₀, hcurrent₀⟩ := (h₀.hashesKept hbefore).current a₀ ha₀
  have hmem₀ : a₀.passwordHash ∈ earlier.filterMap Signed.introduced :=
    (holder.sublist.filterMap _).subset (by rw [hcurrent₀]; exact List.mem_cons_self)
  rw [List.filterMap_append, List.filterMap_cons_some hnew] at hcurrent hnodup
  -- the newest hash is the reset's or one given since
  intro heq
  cases hlater : later.filterMap Signed.introduced with
  | nil =>
    rw [hlater, List.nil_append] at hcurrent hnodup
    obtain ⟨rfl, -⟩ := List.cons.inj hcurrent
    exact (List.nodup_cons.mp hnodup).1 (heq ▸ hmem₀)
  | cons b bs =>
    rw [hlater, List.cons_append] at hcurrent hnodup
    obtain ⟨rfl, -⟩ := List.cons.inj hcurrent
    refine (List.nodup_cons.mp hnodup).1 (heq ▸ ?_)
    exact List.mem_append_right _ (List.mem_cons_of_mem _ hmem₀)

/-! ### Nothing from before a reset counts after it -/

/-- What a reset that was confirmed leaves of what came before it. -/
structure ResetFinal (later : List Signed) (n : Signed) (earlier : List Signed) (db : Database) :
    Prop where
  /-- no session from before is accepted -/
  sessions : ∀ r ∈ n.before.sessions, ∀ scope now, db.session r.tokenHash scope now = none
  /-- a session or a change of the administrator comes from a token that was not
      there before, nor its parent, issued by a request that had not read a
      password before -/
  gains : ∀ y ∈ later, y.Gains → ∃ t, y.usedToken = some t ∧
    (∀ o ∈ n.before.authTokens, t.id ≠ o.id ∧ t.parentID ≠ some o.id) ∧
    ∃ z ∈ later, z.Issued t ∧
      ∀ w ∈ earlier, passwordRead w.exchange ≠ none → w.thread ≠ z.thread

/-- In every history of the sign-in in which every password hash and every token
    value is fresh, a confirmed reset is final; and if tokens were issued at
    times that do not go back, it came from the reset token issued last. -/
theorem reset_final {mac : Mac} {ticks : Instant → Instant → Prop} {config : Config}
    {c : Pool History Call} (h : (signIn mac ticks).Reachable config c)
    {later earlier : List Signed} {n : Signed} (hlog : c.state.signed = later ++ n :: earlier)
    (hn : n.resetParent ≠ none) (hhashes : (c.state.signed.filterMap Signed.brought).Nodup)
    (hvalues : (c.state.signed.filterMap Signed.tokenValue).Nodup) :
    ResetFinal later n earlier c.state.site.db ∧
      ((issueTimes earlier).Pairwise (· ≥ ·) → n.resetParent = lastReset earlier) := by
  have hcommits := signIn_commits h
  rw [hlog] at hcommits hhashes hvalues
  have hafter := hcommits.afterReset hn
  obtain ⟨hearlier, hrun, cfg, heffect⟩ := hcommits.at
  refine ⟨⟨?_, ?_⟩, fun htimes => heffect.last_reset (hearlier.resetsKept htimes) hn⟩
  · intro r hr scope now
    unfold Database.session
    split
    · rfl
    rw [List.find?_eq_none]
    intro r' hr' haccepted
    -- the two sessions were opened before the reset and after it, with one value
    obtain ⟨z, hz, hopened⟩ := hearlier.session_opened hr
    obtain ⟨y, hy, hopened'⟩ := hafter.sessions r' hr'
    have hsame : r'.tokenHash = r.tokenHash := (of_decide_eq_true haccepted).1
    rw [List.append_cons, List.filterMap_append, List.nodup_append] at hvalues
    refine hvalues.2.2 r'.tokenHash ?_ r.tokenHash ?_ hsame
    · refine List.mem_filterMap.mpr ⟨y, ?_, tokenValue_opened hopened'⟩
      rcases List.mem_cons.mp hy with rfl | hy
      · simp
      · simp [hy]
    · exact List.mem_filterMap.mpr ⟨z, hz, tokenValue_opened hopened⟩
  · intro y hy hgains
    obtain ⟨t, hmem, hused, hle, hparent, hkind⟩ := hafter.gains y hy hgains
    obtain ⟨since, between, rfl⟩ := List.append_of_mem hy
    rw [List.append_assoc] at hcommits hhashes
    obtain ⟨hbefore, -, -⟩ := hcommits.at
    refine ⟨t, hused, fun o ho => ?_, ?_⟩
    · have hold := hearlier.numbered.2 o ho
      refine ⟨fun heq => absurd hold (not_lt.mpr (heq ▸ hle)), fun heq => ?_⟩
      exact absurd hold (not_lt.mpr (hparent o.id heq))
    -- the token was issued between the reset and its use
    obtain ⟨z, hz, hissued⟩ := hbefore.issued hmem
    have hzlater : z ∈ between := by
      rcases List.mem_append.mp hz with hz | hz
      · exact hz
      rcases List.mem_cons.mp hz with rfl | hz
      · obtain ⟨i, hi, -⟩ := hissued
        exact absurd ((issued_of_resetParent hn).symm.trans hi) (by simp)
      · exact absurd (hearlier.issued_below hz hissued) (not_lt.mpr hle)
    refine ⟨z, by simp [hzlater], hissued, fun w hw hread hthread => ?_⟩
    obtain ⟨hash, hread⟩ := Option.ne_none_iff_exists'.mp hread
    have hwsigned : w ∈ c.state.signed := by
      rw [hlog]
      simp [hw]
    have hzsigned : z ∈ c.state.signed := by
      rw [hlog]
      simp [hzlater]
    obtain ⟨hnoreset, hpassed⟩ := password_request h hwsigned hzsigned hthread hread
    obtain ⟨cfg', hz'⟩ := hbefore.effect_of_mem hz
    obtain ⟨hresets, hpending⟩ := hz'.issuer hissued
    rcases hkind with ⟨hash', hkind⟩ | ⟨a, scope, ha, hpayload⟩
    · rw [hresets hash' hkind] at hnoreset
      cases hnoreset
    · obtain rfl := hpassed _ (hpending _ _ hpayload)
      obtain ⟨newer, older, rfl⟩ := List.append_of_mem hw
      obtain ⟨holder, hwrun, -⟩ := hearlier.at
      obtain ⟨a₀, ha₀, hhash⟩ := passwordRead_current hwrun hread
      have hfresh : ((between ++ n :: (newer ++ w :: older)).filterMap Signed.brought).Nodup :=
        hhashes.sublist (((List.sublist_cons_self y _).trans
          (List.sublist_append_right since _)).filterMap _)
      refine hbefore.old_hash hn hfresh ha holder ?_ ha₀ hhash.symm
      exact (List.suffix_cons w older).trans (List.suffix_append newer _)

/-- A reset token is issued and its enrolment begun. -/
def resetStep (i : ℕ) (token enrol salt : Char) (now : Instant) : Schedule :=
  [onHost (.newResetToken ⟨letters token⟩ now),
    signsIn (.reset (some ⟨letters token, "", "a new horse and battery"⟩))] ++
  thread i [.plain, .plain, .plain, .text (letters salt), .secret [1], .text (letters enrol),
    .plain, .plain, .plain]

/-- The enrolment of a reset is confirmed. -/
def confirmStep (i : ℕ) (enrol session : Char) : Schedule :=
  signsIn (.confirmEnrolment (some (letters enrol)) "request" (some zeros)) ::
  thread i [.plain, .plain, .text (letters session), .plain, .plain]

section
variable {ticks : Instant → Instant → Prop}

theorem resetStep_of (i : ℕ) (token enrol salt : Char) (now : Instant) :
    ∀ m ∈ resetStep i token enrol salt now, m.Of (signIn flatMac ticks).system := by
  simp only [resetStep, List.forall_mem_append, List.forall_mem_cons]
  exact ⟨⟨Circumstances.onHost_of rfl trivial, signsIn_of _, by simp⟩, Circumstances.thread_of _ _⟩

theorem confirmStep_of (i : ℕ) (enrol session : Char) :
    ∀ m ∈ confirmStep i enrol session, m.Of (signIn flatMac ticks).system :=
  List.forall_mem_cons.mpr ⟨signsIn_of _, Circumstances.thread_of _ _⟩

end

/-- An administrator enrols, signs in, resets access and signs in again. -/
def signInAfterReset : Schedule :=
  signInAfterEnrolment ++ resetStep 4 't' 'f' 'u' (atMinute 2) ++ confirmStep 5 'f' 'g' ++
  clockTo (atMinute 4) :: loginStep 6 'v' "a new horse and battery" ++ codeStep 7 'v' 'h' zeros

theorem signInAfterReset_of :
    ∀ m ∈ signInAfterReset, m.Of (signIn flatMac anyClock).system := by
  simp only [signInAfterReset, List.forall_mem_append, List.forall_mem_cons]
  exact ⟨⟨⟨⟨signInAfterEnrolment_of (fun _ _ _ => trivial), resetStep_of _ _ _ _ _⟩,
    confirmStep_of _ _ _⟩, clockTo_of (fun _ _ _ => trivial) _, loginStep_of _ _ _⟩,
    codeStep_of _ _ _ _⟩

/-- There is a run with a reset that is confirmed, and a session opened after it. -/
theorem reset_final_once : ∃ (c : Pool History Call) (later earlier : List Signed) (n : Signed),
    (signIn flatMac anyClock).Reachable publicConfig c ∧ c.state.signed = later ++ n :: earlier ∧
      n.before.sessions.length = 2 ∧ (∃ y ∈ later, y.opened ≠ none) ∧
      ResetFinal later n earlier c.state.site.db ∧ n.resetParent = some 4 := by
  obtain ⟨c, hreach, hstate⟩ := Circumstances.played_reachable (C := signIn flatMac anyClock)
    rfl publicConfig signInAfterReset_of
    (f := fun c => ((c.state.signed.drop 4).head?.map (fun n =>
        (n.resetParent, n.before.sessions.length)),
      decide (∃ y ∈ c.state.signed.take 4, y.opened ≠ none),
      decide (c.state.signed.filterMap Signed.brought).Nodup,
      decide (c.state.signed.filterMap Signed.tokenValue).Nodup))
    (a := (some (some 4, 2), true, true, true)) (by decide +kernel)
  simp only [Prod.mk.injEq, decide_eq_true_eq] at hstate
  obtain ⟨hhead, hopened, hhashes, hvalues⟩ := hstate
  obtain ⟨n, hn, hparts⟩ := Option.map_eq_some_iff.mp hhead
  obtain ⟨hreset, hsessions⟩ := Prod.mk.inj hparts
  obtain ⟨earlier, hdrop⟩ := List.head?_eq_some_iff.mp hn
  have hlog : c.state.signed = c.state.signed.take 4 ++ n :: earlier := by
    rw [← hdrop, List.take_append_drop]
  have hfinal := reset_final hreach hlog (by simp [hreset]) hhashes hvalues
  exact ⟨c, _, earlier, n, hreach, hlog, hsessions, hopened, hfinal.1, hreset⟩

/-- The clock is set. -/
def setClock (t : Instant) : Move History Call Reply :=
  .outside (fun h => { h with site := { h.site with clock := t } })

/-- A reset is begun while the clock is two days fast. Once the clock is right
    another reset token is issued, and after two days a sign-in prunes it. -/
def resetAcrossClocks : Schedule :=
  enrolment ++ setClock (atMinute 2880) :: resetStep 2 't' 'f' 'u' (atMinute 2880) ++
  [setClock (atMinute 1), onHost (.newResetToken ⟨letters 'v'⟩ (atMinute 1)),
    setClock (atMinute 2881)] ++ passwordStep 3 'p' ++ confirmStep 4 'f' 'g'

/-- There is a run in which the enrolment that confirms is not one of the reset
    token issued last. -/
theorem reset_from_replaced_token : ∃ (c : Pool History Call) (n : Signed) (earlier : List Signed),
    (signIn flatMac anyClock).Reachable publicConfig c ∧ c.state.signed = n :: earlier ∧
      (c.state.signed.filterMap Signed.brought).Nodup ∧
      (c.state.signed.filterMap Signed.tokenValue).Nodup ∧
      n.resetParent = some 3 ∧ lastReset earlier = some 5 := by
  have hset : ∀ t, (setClock t).Of (signIn flatMac anyClock).system :=
    fun t _ => .tick t trivial
  have hof : ∀ m ∈ resetAcrossClocks, m.Of (signIn flatMac anyClock).system := by
    simp only [resetAcrossClocks, List.forall_mem_append, List.forall_mem_cons]
    exact ⟨⟨⟨⟨enrolment_of (fun _ _ _ => trivial), hset _, resetStep_of _ _ _ _ _⟩, hset _,
      Circumstances.onHost_of rfl trivial, hset _, by simp⟩, passwordStep_of _ _⟩,
      confirmStep_of _ _ _⟩
  obtain ⟨c, hreach, hstate⟩ := Circumstances.played_reachable (C := signIn flatMac anyClock)
    rfl publicConfig hof
    (f := fun c => (c.state.signed.head?.map Signed.resetParent, lastReset c.state.signed.tail,
      decide (c.state.signed.filterMap Signed.brought).Nodup,
      decide (c.state.signed.filterMap Signed.tokenValue).Nodup))
    (a := (some (some 3), some 5, true, true)) (by decide +kernel)
  simp only [Prod.mk.injEq, decide_eq_true_eq] at hstate
  obtain ⟨hhead, hlast, hhashes, hvalues⟩ := hstate
  obtain ⟨n, hn, hreset⟩ := Option.map_eq_some_iff.mp hhead
  obtain ⟨earlier, hlog⟩ := List.head?_eq_some_iff.mp hn
  rw [hlog, List.tail_cons] at hlast
  exact ⟨c, n, earlier, hreach, hlog, hhashes, hvalues, hreset, hlast⟩

end Pgfy
