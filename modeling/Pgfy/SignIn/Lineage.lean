import Pgfy.SignIn.Reset

/-! # Where an enrolment comes from

    An enrolment of a setup or a reset began with a token that was used up for
    it, and an enrolment of a factor after a password step is bound to the
    password that was current. Both hold of every live enrolment, in every state
    a run of signing in can reach.
-/

namespace Pgfy

open Calendar Program

/-! ### The parents of enrolments -/

/-- What the token was for that an enrolment of this kind began with. -/
def EnrolmentKind.parent : EnrolmentKind → Option Purpose
  | .setup _ _ => some .setup
  | .reset _ => some .reset
  | .upgrade _ _ => none

/-- As long as a live enrolment has a parent, that one is in the table, used up,
    and of the right kind. -/
def Lineage (ts : List AuthToken) : Prop :=
  ∀ t ∈ ts, t.purpose = .enrol → t.consumedAt = none → ∀ id, t.parentID = some id →
    ∃ p ∈ ts, p.id = id ∧ p.consumedAt ≠ none ∧
      ∀ v, t.payload = .enrolment v → v.plain.kind.parent = some p.purpose

theorem Lineage.stays {ts ts' : List AuthToken} (h : Lineage ts) (hs : Stays ts ts') :
    Lineage ts' := by
  intro t' ht' hpurpose hlive id hid
  obtain ⟨t, ht, hl⟩ := hs.aged.mem ht'
  obtain ⟨p, hp, hpid, hc, hkind⟩ :=
    h t ht (hl.purpose ▸ hpurpose) (hl.live hlive) id (hl.parent hid)
  obtain ⟨p', hp', hl'⟩ := hs.kept p hp
  refine ⟨p', hp', hl'.id.trans hpid, hl'.consumed hc, fun v hv => ?_⟩
  rw [hl'.purpose]
  exact hkind v (hl.payload ▸ hv)

theorem Lineage.exhausted {ts : List AuthToken} (h : Database.Exhausted ts) : Lineage ts := by
  intro t ht hpurpose hlive
  rcases h t ht with hsetup | hused
  · exact absurd (hsetup.symm.trans hpurpose) (by simp)
  · exact absurd hlive hused

/-- Issuing keeps the lineage if the parent of a new enrolment is used up and of
    the right kind. -/
theorem Lineage.issue {db db' : Database} {purpose : Purpose} {hash : Digest String} {ttl : ℤ}
    {max : ℕ} {parent : Option ℕ} {payload : Payload} {now : Instant} (h : Lineage db.authTokens)
    (hrun : db.issue purpose hash ttl max parent payload now = .ok db')
    (hparent : ∀ p ∈ db.authTokens, parent = some p.id → p.consumedAt ≠ none ∧
      ∀ v, payload = .enrolment v → v.plain.kind.parent = some p.purpose) :
    Lineage db'.authTokens := by
  unfold Database.issue at hrun
  dsimp only at hrun
  split at hrun
  · cases hrun
  split at hrun
  · cases hrun
  next hexists =>
  cases hrun
  -- a row that is not pruned is there after it
  have hkept : ∀ p ∈ db.authTokens, ¬ p.expiresAt < unix (now - 24 * hour) →
      ∃ p' ∈ (db.deleteTokens (fun t => t.expiresAt < unix (now - 24 * hour))).authTokens,
        p'.id = p.id ∧ p'.consumedAt = p.consumedAt ∧ p'.purpose = p.purpose := by
    intro p hp hlive
    refine ⟨_, List.mem_map_of_mem (List.mem_filter.mpr ⟨hp, ?_⟩), rfl, rfl, rfl⟩
    simpa using hlive
  intro t ht hpurpose hlive id hid
  rcases List.mem_append.mp ht with ht | ht
  · obtain ⟨t₀, ht₀, rfl⟩ := List.mem_map.mp ht
    obtain ⟨hparent₀, hgone⟩ := Option.filter_eq_some_iff.mp hid
    obtain ⟨p, hp, hpid, hc, hkind⟩ :=
      h t₀ (List.mem_filter.mp ht₀).1 hpurpose hlive id hparent₀
    have hstays : ¬ p.expiresAt < unix (now - 24 * hour) := by
      intro hold
      have hdropped : db.authTokens.any (fun p =>
          decide (p.expiresAt < unix (now - 24 * hour)) && decide (p.id = id)) = true :=
        List.any_eq_true.mpr ⟨p, hp, by simp [hold, hpid]⟩
      rw [hdropped] at hgone
      cases hgone
    obtain ⟨p', hp', hid', hc', hpurpose'⟩ := hkept p hp hstays
    exact ⟨p', List.mem_append_left _ hp', hid'.trans hpid, hc' ▸ hc,
      fun v hv => hpurpose' ▸ hkind v hv⟩
  · obtain rfl := List.mem_singleton.mp ht
    obtain rfl : parent = some id := hid
    have hany : (db.deleteTokens (fun t => t.expiresAt < unix (now - 24 * hour))).authTokens.any
        (fun p => decide (p.id = id)) = true := by simpa using hexists
    obtain ⟨p', hp', hid'⟩ := List.any_eq_true.mp hany
    obtain ⟨p, hp, rfl⟩ := List.mem_map.mp hp'
    have hpid : p.id = id := of_decide_eq_true hid'
    obtain ⟨hc, hkind⟩ := hparent p (List.mem_filter.mp hp).1 (congrArg some hpid.symm)
    exact ⟨_, List.mem_append_left _ hp', hpid, hc, hkind⟩

/-- An enrolment that begins with a token uses that one up. -/
theorem Lineage.begun {db db₁ db' : Database} {purpose : Purpose} {token hash : Digest String}
    {t : AuthToken} {payload : Payload} {now : Instant} (h : Lineage db.authTokens)
    (hn : (db.authTokens.map AuthToken.id).Nodup)
    (huse : db.useToken purpose token now = some (t, db₁))
    (hrun : (db₁.consume t.id now).issue .enrol hash enrolTTL codeTries (some t.id) payload now =
      .ok db') (hkind : ∀ v, payload = .enrolment v → v.plain.kind.parent = some purpose) :
    Lineage db'.authTokens := by
  obtain ⟨t₀, hfound, husable, rfl, rfl⟩ := Database.useToken_some huse
  have hused : Stays db.authTokens (db.spent token).authTokens :=
    Database.stays_modify AuthToken.Later.used db.authTokens
  have hconsumed := Database.stays_consume t₀.id now (db.spent token)
  refine Lineage.issue ((h.stays hused).stays hconsumed) hrun ?_
  intro p hp hid
  obtain ⟨p₁, hp₁, rfl⟩ := Table.mem_modify.mp hp
  obtain ⟨p₀, hp₀, hl⟩ := hused.aged.mem hp₁
  have hid₁ : p₁.id = t₀.id := by
    have hsame := (Option.some.inj hid).symm
    split at hsame <;> exact hsame
  -- numbers are unique, so this is the token that was used
  obtain rfl : p₀ = t₀ := List.inj_on_of_nodup_map hn hp₀ (Table.find_eq_some hfound).1
    (hl.id.symm.trans hid₁)
  rw [if_pos hid₁]
  refine ⟨by simp, fun v hv => ?_⟩
  rw [hkind v hv]
  exact congrArg some (hl.purpose.trans husable.1).symm

theorem parentPurpose_of_lineage {db : Database} (hl : Lineage db.authTokens)
    (hn : (db.authTokens.map AuthToken.id).Nodup) {t : AuthToken} (ht : t ∈ db.authTokens)
    (hpurpose : t.purpose = .enrol) (hlive : t.consumedAt = none) {id : ℕ}
    (hid : t.parentID = some id) {v : Sealed Enrolment} (hv : t.payload = .enrolment v) :
    db.parentPurpose t = v.plain.kind.parent := by
  obtain ⟨p, hp, hpid, hc, hkind⟩ := hl t ht hpurpose hlive id hid
  rw [hkind v hv, Database.parentPurpose, hid, Option.bind_some]
  have hsome : (db.authTokens.find? (fun q =>
      decide (q.id = id ∧ q.consumedAt.isSome = true))).isSome = true := by
    rw [List.find?_isSome]
    exact ⟨p, hp, by simp [hpid, Option.isSome_iff_ne_none, hc]⟩
  obtain ⟨q, hq⟩ := Option.isSome_iff_exists.mp hsome
  have hfound := List.find?_some hq
  rw [decide_eq_true_eq] at hfound
  obtain rfl : q = p := List.inj_on_of_nodup_map hn (List.mem_of_find?_eq_some hq) hp
    (hfound.1.trans hpid.symm)
  rw [hq]
  rfl

section
variable {mac : Mac} {log : List Signed} {s : SignInTables}

theorem Commits.lineage (h : Commits mac log s) : Lineage s.authTokens := by
  induction h with
  | nil => exact fun t ht => absurd ht List.not_mem_nil
  | @cons cfg x log rest hrun heffect ih =>
    have hn := rest.numbered.1
    cases hi : x.statement.issued with
    | none =>
      cases heffect.gain with
      | nothing _ _ _ _ hstays => exact ih.stays (hstays hi)
      | first _ _ _ _ _ hstays | factorless _ _ _ _ _ _ _ _ hstays
      | code _ _ _ _ _ _ _ _ _ _ _ _ _ _ hstays =>
        exact ih.stays hstays
      | reset _ _ _ _ _ _ _ _ _ _ _ _ _ _ _ _ _ _ _ hused => exact .exhausted (hused hn)
    | some i =>
      cases heffect with
      | quiet hq => exact absurd (hq.issued.symm.trans hi) (by simp)
      | setupToken hash now hnone =>
        have hok := map_eq_ok hrun
        unfold Database.newSetupToken at hok
        split at hok
        · cases hok
        split at hok
        · cases hok
        exact ih.issue hok (fun _ _ hp => (nomatch hp))
      | setupBegun =>
        have hok := map_eq_ok hrun
        unfold Database.beginEnrolment at hok
        split at hok
        · cases hok
        next t db₁ huse =>
        split at hok
        · cases hok
        exact ih.begun hn huse hok (by rintro _ ⟨⟩; rfl)
      | upgradeBegun | pendingBegun => exact ih.issue (map_eq_ok hrun) (fun _ _ hp => (nomatch hp))
      | resetToken hash now =>
        have hok := map_eq_ok hrun
        unfold Database.newResetToken at hok
        split at hok
        · cases hok
        exact (ih.stays (Database.stays_consumeResets now _)).issue hok (fun _ _ hp => (nomatch hp))
      | resetBegun =>
        have hok := map_eq_ok hrun
        unfold Database.beginReset at hok
        split at hok
        · cases hok
        next t db₁ huse => exact ih.begun hn huse hok (by rintro _ ⟨⟩; rfl)
      | _ => cases hi

/-! ### The password while there is no factor -/

/-- The administrator stays, and has had one password as long as there is no
    factor. -/
theorem Commits.unfactored (h : Commits mac log s) {w : Signed} (hw : w ∈ log)
    {a₀ : Administrator} (ha₀ : w.before.administrator = some a₀) :
    ∃ a, s.administrator = some a ∧
      (a.totpSecretSealed = none → a₀.totpSecretSealed = none ∧
        a.passwordHash = a₀.passwordHash) := by
  induction h with
  | nil => cases hw
  | @cons cfg x log rest hrun heffect ih =>
    obtain ⟨a₁, ha₁, hsame⟩ : ∃ a, x.before.administrator = some a ∧
        (a.totpSecretSealed = none → a₀.totpSecretSealed = none ∧
          a.passwordHash = a₀.passwordHash) := by
      rcases List.mem_cons.mp hw with rfl | hw
      · exact ⟨a₀, ha₀, fun hless => ⟨hless, rfl⟩⟩
      · exact ih hw
    cases heffect.gain with
    | nothing hadmin => exact ⟨a₁, hadmin.trans ha₁, hsame⟩
    | first hnone => exact absurd (hnone.symm.trans ha₁) (by simp)
    | factorless a a' ha hless ha' hhash =>
      obtain rfl : a = a₁ := Option.some.inj (ha.symm.trans ha₁)
      exact ⟨a', ha', fun _ => ⟨(hsame hless).1, hhash.trans (hsame hless).2⟩⟩
    | code a a' t _ _ _ _ ha _ ha' hhash hfactor =>
      obtain rfl : a = a₁ := Option.some.inj (ha.symm.trans ha₁)
      refine ⟨a', ha', fun hless => ?_⟩
      obtain ⟨hless₀, hhash₀⟩ := hsame (hfactor ▸ hless)
      exact ⟨hless₀, hhash.trans hhash₀⟩
    | reset _ a' _ _ _ _ _ _ _ ha' _ hfactor => exact ⟨a', ha', fun hless => absurd hless hfactor⟩

end

/-! ### The password an enrolment is bound to -/

/-- The binding a factor is enrolled with after a password step. -/
def upgradesTo : Exchange Call → Option (Digest PasswordHash)
  | ⟨.auth (.beginUpgrade _ (.enrolment v) _), _⟩ =>
    match v.plain.kind with
    | .upgrade _ binding => some binding
    | _ => none
  | _ => none

/-- The password hash that was current when the factor was looked at. -/
def factorRead : Exchange Call → Option PasswordHash
  | ⟨.auth .factor, .ok (_, hash)⟩ => some hash
  | _ => none

/-- An enrolment of a factor is bound to a password hash that was read. -/
def Bound (seen : List (Exchange Call)) : Prop :=
  ∀ e ∈ seen, ∀ binding, upgradesTo e = some binding →
    ∃ e' ∈ seen, factorRead e' = some binding.of

/-- A call that begins no enrolment of a factor. -/
def Call.Unbound ⦃β : Type⦄ (c : Call β) : Prop := ∀ r, upgradesTo ⟨c, r⟩ = none

theorem Bound.cons {seen : List (Exchange Call)} {e : Exchange Call} (h : Bound seen)
    (he : ∀ binding, upgradesTo e = some binding → ∃ e' ∈ seen, factorRead e' = some binding.of) :
    Bound (e :: seen) := by
  intro d hd binding hb
  rcases List.mem_cons.mp hd with rfl | hd
  · obtain ⟨e', he', hread⟩ := he binding hb
    exact ⟨e', List.mem_cons_of_mem _ he', hread⟩
  · obtain ⟨e', he', hread⟩ := h d hd binding hb
    exact ⟨e', List.mem_cons_of_mem _ he', hread⟩

theorem Bound.unbound {β : Type} {c : Call β} (hc : c.Unbound) {seen : List (Exchange Call)}
    (r : β) (h : Bound seen) : Bound (⟨c, r⟩ :: seen) :=
  h.cons (fun _ hb => absurd ((hc r).symm.trans hb) (by simp))

theorem Call.Foreign.unbound ⦃β : Type⦄ (c : Call β) (h : c.Foreign) : c.Unbound := by
  intro r
  cases c <;> first | exact h.elim | rfl

theorem keeps_unbound {α : Type} {p : Run α} (hp : p.Calls Call.Unbound)
    (seen : List (Exchange Call)) : Keeps Bound p (fun _ _ => True) seen :=
  Keeps.of_calls (fun _ _ hc _ r h => h.unbound hc r) hp

/-- A call that matters to no binding, and what follows it. -/
theorem bound_ask {α β : Type} {c : Call β} {f : β → Run α} {seen : List (Exchange Call)}
    (hc : c.Unbound) (h : ∀ r, Keeps Bound (f r) (fun _ _ => True) (⟨c, r⟩ :: seen)) :
    Keeps Bound (Prog.bind (Prog.ask c) f) (fun _ _ => True) seen :=
  Keeps.ask (fun hseen r => ⟨hseen.unbound hc r, h r⟩)

theorem bound_failure (status : ℕ) (code : String) (seen : List (Exchange Call)) :
    Keeps Bound (failure status code) (fun _ _ => True) seen :=
  keeps_unbound (failure_calls Call.Foreign.unbound _ _) seen

/-- Once the password hash was read an enrolment may be bound to it. -/
theorem startEnrolment_bound (cfg : Config) (email : String) (current : PasswordHash)
    {seen : List (Exchange Call)} (hread : ∃ e ∈ seen, factorRead e = some current) :
    Keeps Bound (startEnrolment cfg (.upgrade email ⟨current⟩) .beginUpgrade)
      (fun _ _ => True) seen := by
  have hcalls : (startEnrolment cfg (.upgrade email ⟨current⟩) .beginUpgrade).Calls
      (fun β c => ∀ (r : β) binding, upgradesTo ⟨c, r⟩ = some binding → binding.of = current) := by
    refine startEnrolment_calls (fun β c hc r binding hb => ?_) cfg _ _ ?_
    · exact absurd ((hc.unbound _ r).symm.trans hb) (by simp)
    · rintro hash secret now r _ ⟨⟩
      rfl
  refine Safe.mono (fun _ _ _ => trivial) (Keeps.of_calls_after
    (W := fun seen => ∃ e ∈ seen, factorRead e = some current) ?_ ?_ hcalls hread)
  · rintro e seen ⟨e', he', hr⟩
    exact ⟨e', List.mem_cons_of_mem _ he', hr⟩
  · intro β c hc seen r hseen hbound
    exact hbound.cons (fun binding hb => by rw [hc r binding hb]; exact hseen)

theorem afterPassword_bound (cfg : Config) (email : String) (hash : PasswordHash)
    (seen : List (Exchange Call)) :
    Keeps Bound (afterPassword cfg email hash) (fun _ _ => True) seen := by
  apply bound_ask (fun _ => rfl)
  intro current
  split
  · exact bound_failure _ _ _
  next enrolled current =>
  split
  · exact bound_failure _ _ _
  split
  · apply bound_ask (fun _ => rfl)
    intro pending
    apply bound_ask (fun _ => rfl)
    intro now
    apply bound_ask (fun _ => rfl)
    intro begun
    split
    · exact keeps_unbound (respond_calls Call.Foreign.unbound _) _
    · exact bound_failure _ _ _
  split
  · exact startEnrolment_bound cfg email current ⟨_, List.mem_cons_self, rfl⟩
  apply bound_ask (fun _ => rfl)
  intro token
  apply bound_ask (fun _ => rfl)
  intro now
  apply bound_ask (fun _ => rfl)
  intro done
  split
  · exact keeps_unbound (respond_calls Call.Foreign.unbound _) _
  all_goals exact bound_failure _ _ _

theorem login_bound (cfg : Config) (body : Option Credentials) :
    Keeps Bound (login cfg body) (fun _ _ => True) [] := by
  apply bound_ask (fun _ => rfl)
  intro allowed
  split
  · apply bound_ask (fun _ => rfl)
    intro slot
    split
    · split
      · exact bound_failure _ _ _
      apply bound_ask (fun _ => rfl)
      intro email
      apply bound_ask (fun _ => rfl)
      intro hash
      split
      · exact bound_failure _ _ _
      · exact bound_failure _ _ _
      next hash =>
      split
      · exact afterPassword_bound cfg _ _ _
      · exact bound_failure _ _ _
    · exact bound_failure _ _ _
  · exact bound_failure _ _ _

theorem handler_bound (mac : Mac) (cfg : Config) (request : SignInRequest) :
    Keeps Bound (request.handler mac cfg) (fun _ _ => True) [] := by
  have hK := Call.Foreign.unbound
  cases request with
  | login body => exact login_bound cfg body
  | setup body =>
    exact keeps_unbound (setup_calls hK cfg body (fun _ _ _ _ _ _ _ => rfl)
      (fun _ _ _ _ _ _ _ => rfl)) _
  | reset body => exact keeps_unbound (startReset_calls hK cfg body (fun _ _ _ _ _ _ => rfl)) _
  | code pending body =>
    exact keeps_unbound (confirmCode_calls hK mac cfg pending body (fun _ _ _ _ _ => rfl)) _
  | confirmEnrolment enrol requestID body =>
    exact keeps_unbound (confirmEnrolment_calls hK mac cfg enrol requestID body
      (fun _ _ _ _ _ => rfl)) _
  | currentEnrolment enrol =>
    exact keeps_unbound (currentEnrolment_calls hK enrol (fun _ _ _ => rfl) (fun _ => rfl)
      (fun _ _ _ => rfl)) _
  | abandon pending enrol =>
    exact keeps_unbound (Prog.Calls.bind (abandonSteps_calls hK pending enrol (fun _ _ _ => rfl))
      (fun _ => respond_calls hK _)) _
  | session cookie =>
    exact keeps_unbound (authorize_calls hK cfg _ _ _ (fun _ _ _ => rfl)
      (fun _ => respond_calls hK _)) _
  | logout cookie csrf pending enrol =>
    exact keeps_unbound (logout_calls hK cfg cookie csrf pending enrol (fun _ _ _ => rfl)
      (fun _ _ => rfl) (fun _ _ _ => rfl)) _

theorem Effect.upgrader {mac : Mac} {cfg : Config} {x : Signed} (h : Effect mac cfg x)
    {t : AuthToken} (ht : x.Issued t) {v : Sealed Enrolment} (hv : t.payload = .enrolment v)
    {email : String} {binding : Digest PasswordHash} (hk : v.plain.kind = .upgrade email binding) :
    upgradesTo x.exchange = some binding := by
  obtain ⟨i, hi, -, -, hpayload, -⟩ := ht
  rw [hpayload] at hv
  cases h with
  | quiet hq => exact absurd (hq.issued.symm.trans hi) (by simp)
  | setupToken | resetToken | pendingBegun =>
    cases hi
    cases hv
  | setupBegun | resetBegun =>
    cases hi
    cases hv
    cases hk
  | upgradeBegun =>
    cases hi
    cases hv
    cases hk
    rfl
  | _ => cases hi

theorem factorRead_current {x : Signed} {hash : PasswordHash}
    (hrun : x.statement.run x.before = .ok (x.result, x.after))
    (h : factorRead x.exchange = some hash) :
    ∃ a, x.before.administrator = some a ∧ a.passwordHash = hash := by
  obtain ⟨thread, q, r, clock, before, after⟩ := x
  cases q with
  | factor =>
    obtain ⟨enrolled, hash'⟩ := r
    cases h
    cases hadmin : before.administrator with
    | none => simp [AuthCall.run, Database.factor, hadmin, Except.map] at hrun
    | some a =>
      refine ⟨a, rfl, ?_⟩
      simp only [AuthCall.run, Database.factor, hadmin, Except.map, Except.ok.injEq,
        Prod.mk.injEq] at hrun
      exact hrun.1.2
  | _ => cases h

/-- What a thread has read of the factor was read by a committed statement. -/
theorem factorRead_signed {h : History} {i : ℕ} {e : Exchange Call} (he : e ∈ h.journal i)
    {hash : PasswordHash} (hread : factorRead e = some hash) :
    ∃ w ∈ h.signed, factorRead w.exchange = some hash := by
  obtain ⟨n, hn, rfl⟩ := List.mem_map.mp he
  obtain ⟨thread, c, r, before, after⟩ := n
  cases c with
  | auth q =>
    cases q with
    | factor =>
      cases r with
      | error e => cases hread
      | ok read =>
        exact ⟨⟨thread, .factor, read, before.clock, before.db, after.db⟩,
          List.mem_filterMap.mpr ⟨_, (List.mem_filter.mp hn).1, rfl⟩, hread⟩
    | _ => cases hread
  | _ => cases hread

section
variable {mac : Mac} {ticks : Instant → Instant → Prop} {config : Config} {c : Pool History Call}

theorem signIn_bound (h : (signIn mac ticks).Reachable config c) (i : ℕ) :
    Bound (c.state.journal i) := by
  refine signIn_journals (fun e he => absurd he List.not_mem_nil) (handler_bound mac)
    (fun p hp => ?_) h i
  exact keeps_unbound (hp.mono Call.Foreign.unbound) _

/-- As long as there is no factor, an enrolment of one is bound to the current
    password. -/
theorem upgrade_binding (h : (signIn mac ticks).Reachable config c) {t : AuthToken}
    (ht : t ∈ c.state.site.db.authTokens) {v : Sealed Enrolment} (hv : t.payload = .enrolment v)
    {email : String} {binding : Digest PasswordHash} (hk : v.plain.kind = .upgrade email binding)
    {a : Administrator} (ha : c.state.site.db.administrator = some a)
    (hless : a.totpSecretSealed = none) : binding = ⟨a.passwordHash⟩ := by
  have hcommits := signIn_commits h
  obtain ⟨z, hz, hissued⟩ := hcommits.issued ht
  obtain ⟨cfg, heffect⟩ := hcommits.effect_of_mem hz
  have hupgrade := heffect.upgrader hissued hv hk
  cases hi : z.thread with
  | none =>
    -- no command on the host begins an enrolment
    obtain ⟨n, hn, hsigned⟩ := List.mem_filterMap.mp hz
    obtain ⟨hexchange, hthread, -⟩ := Note.signed_exchange hsigned
    have hcommand := host_notes h n hn (hthread.trans hi)
    rw [← hexchange] at hupgrade
    obtain ⟨thread, c, r, before, after⟩ := n
    cases c with
    | auth q => cases q <;> first | exact hcommand.elim | cases hupgrade
    | _ => cases hupgrade
  | some i =>
    obtain ⟨e, he, hread⟩ := signIn_bound h i _ (mem_journal hz hi) binding hupgrade
    obtain ⟨w, hw, hread⟩ := factorRead_signed he hread
    obtain ⟨later, earlier, hlog⟩ := List.append_of_mem hw
    obtain ⟨-, hrun, -⟩ := (hlog ▸ hcommits).at
    obtain ⟨a₀, ha₀, hhash⟩ := factorRead_current hrun hread
    obtain ⟨a', ha', hsame⟩ := hcommits.unfactored hw ha₀
    obtain rfl : a = a' := Option.some.inj (ha.symm.trans ha')
    rw [(hsame hless).2, hhash]

end

end Pgfy
