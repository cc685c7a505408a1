import Pgfy.SignIn.Codes
import Pgfy.SignIn.Journals

/-! # Wrong codes

    Every fifth wrong code in a row locks the code step, for longer and longer.
    The lock is looked at with a time the request has read before, so with a
    clock that never runs backwards it is over when a code is checked. A
    password step has five attempts, counted in the statement that checks.
-/

namespace Pgfy

open Calendar Program

variable {mac : Mac} {cfg : Config} {x : Signed} {log : List Signed}

/-! ### Counting -/

/-- A wrong code was checked. -/
def Signed.wrong : Signed → Bool
  | ⟨_, .confirmPending .., .error .code, _, _, _⟩ => true
  | _ => false

/-- A code was accepted, be it to sign in or to enrol a factor. -/
def Signed.clears (x : Signed) : Bool := x.accepted.isSome

/-- The wrong codes since the last one that was accepted. -/
def wrongCodes : List Signed → ℕ
  | [] => 0
  | x :: log => if x.clears then 0 else if x.wrong then wrongCodes log + 1 else wrongCodes log

/-- When the lock ends that a wrong code has set. -/
def Signed.lock (x : Signed) : Option ℤ :=
  if x.wrong then
    x.after.administrator.bind (fun a =>
      if a.codeFailures % 5 = 0 then some a.codeLockedUntil else none)
  else none

/-- The ends of the locks set since the last code that was accepted. -/
def locks : List Signed → List ℤ
  | [] => []
  | x :: log => if x.clears then [] else x.lock.toList ++ locks log

/-- The password step a code was checked for. -/
def Signed.token : Signed → Option ℕ
  | ⟨_, .confirmPending hash _ _ _ _, _, _, before, _⟩ =>
    (Table.find AuthToken.tokenHash hash before.authTokens).map AuthToken.id
  | _ => none

/-! ### The length of a lock -/

theorem lockTime_eq (k : ℕ) : lockTime (5 * (k + 1)) = minute * min (2 ^ k) 60 := by
  have hdiv : 5 * (k + 1) / 5 = k + 1 := by omega
  unfold lockTime
  dsimp only
  rw [hdiv, Nat.add_sub_cancel]
  by_cases hk : k ≤ 6
  · interval_cases k <;> decide
  · -- from the eighth lock on the length is fixed
    rw [if_pos (Or.inl (by omega))]
    have hpow : (2 : ℤ) ^ 7 ≤ 2 ^ k := pow_le_pow_right₀ (by norm_num) (by omega)
    rw [min_eq_right (by omega)]
    rfl

theorem unix_add_minutes (now : Instant) (m : ℤ) : unix (now + minute * m) = unix now + 60 * m := by
  have hminute : minute * m = second * (60 * m) := by
    rw [minute, mul_comm 60, mul_assoc]
  rw [unix, unix, hminute, Int.add_mul_ediv_left _ _ (by decide)]

/-! ### What a statement does to the lock -/

/-- What a committed statement means for the count of wrong codes and the lock. -/
inductive LockChange (x : Signed) : Prop
  | same (hwrong : x.wrong = false) (hclears : x.clears = false)
      (hkept : ∀ a', x.after.administrator = some a' →
        (x.before.administrator = none ∧ a'.codeFailures = 0 ∧ a'.codeLockedUntil = 0) ∨
        ∃ a, x.before.administrator = some a ∧ a'.codeFailures = a.codeFailures ∧
          a'.codeLockedUntil = a.codeLockedUntil)
      (hnone : x.after.administrator = none → x.before.administrator = none)
  | wrong (now : Instant) (a : Administrator) (hwrong : x.wrong = true)
      (hclears : x.clears = false) (hchecked : x.checkedAt = some now)
      (ha : x.before.administrator = some a) (hlock : a.codeLockedUntil ≤ unix now)
      (hafter : x.after.administrator = some (a.countFailure now))
  | cleared (hclears : x.clears = true) (a' : Administrator)
      (ha' : x.after.administrator = some a') (hfailures : a'.codeFailures = 0)
      (hlock : a'.codeLockedUntil = 0)

theorem LockChange.kept (hwrong : x.wrong = false) (hclears : x.accepted = none)
    (hadmin : x.after.administrator = x.before.administrator) : LockChange x := by
  refine .same hwrong (by rw [Signed.clears, hclears]; rfl) (fun a' ha' => ?_) (fun h => hadmin ▸ h)
  exact Or.inr ⟨a', hadmin ▸ ha', rfl, rfl⟩

theorem Effect.lockChange (h : Effect mac cfg x) : LockChange x := by
  cases h with
  | @quiet x hq hadmin =>
    refine .kept ?_ (accepted_quiet hq) hadmin
    obtain ⟨thread, q, r, clock, before, after⟩ := x
    cases q <;> first | rfl | exact hq.elim
  | logout token => exact .kept rfl rfl rfl
  | setupToken _ _ _ h | setupBegun _ _ _ _ _ _ _ _ _ _ h | upgradeBegun _ _ _ _ _ _ h
  | resetToken _ _ _ h | resetBegun _ _ _ _ _ _ _ _ h | pendingBegun _ _ _ h =>
    exact .kept rfl rfl h.administrator
  | setup _ _ _ _ _ _ hnone tokens _ hafter =>
    subst hafter
    refine .same rfl rfl (fun a' ha' => Or.inl ⟨hnone, ?_⟩) (fun h => nomatch h)
    cases ha'
    exact ⟨rfl, rfl⟩
  | password _ _ _ _ _ _ _ _ hafter =>
    subst hafter
    exact .kept rfl rfl rfl
  | code hash sessionHash now code r a t ha hlock _ _ tokens _ houtcome =>
    cases houtcome with
    | rejected => exact .kept rfl rfl rfl
    | wrong secret _ _ =>
      exact .wrong now a rfl rfl rfl ha hlock
        (congrArg Database.administrator (Database.countFailure_same _ _ _))
    | refused secret _ e he _ =>
      refine .kept ?_ rfl rfl
      cases e <;> first | rfl | exact absurd rfl he
    | accepted secret hs _ step hv _ =>
      refine .cleared ?_ _ rfl rfl rfl
      simp only [Signed.clears, Signed.accepted, ha, hs, hv, Option.isSome_some]
  | enrol hash sessionHash requestID now code r t hfind _ tokens _ houtcome =>
    cases houtcome with
    | refused e => exact .kept rfl rfl rfl
    | setup c hv | upgrade c hv | reset c hv =>
      refine .cleared ?_ _ rfl rfl rfl
      simp only [Signed.clears, Signed.accepted, hfind, hv, Option.isSome_some]

/-- A code is checked only if the administrator's lock is over at the time the
    request has read. -/
theorem Effect.unlocked (h : Effect mac cfg x) {now : Instant} (hx : x.checkedAt = some now) :
    ∃ a, x.before.administrator = some a ∧ a.codeLockedUntil ≤ unix now := by
  cases h with
  | @quiet x hq =>
    obtain ⟨thread, q, r, clock, before, after⟩ := x
    cases q <;> first | exact hq.elim | cases hx
  | code _ _ _ _ _ a _ ha hlock =>
    cases hx
    exact ⟨a, ha, hlock⟩
  | _ => cases hx

/-! ### The invariant -/

/-- When the lock ends that the `n`-th wrong code in a row sets. -/
def lockAfter (n : ℕ) (now : Instant) : Option ℤ :=
  if n % 5 = 0 then some (unix (now + lockTime n)) else none

theorem wrongCodes_wrong (hc : x.clears = false) (hw : x.wrong = true) :
    wrongCodes (x :: log) = wrongCodes log + 1 := by
  simp [wrongCodes, hc, hw]

theorem wrongCodes_same (hc : x.clears = false) (hw : x.wrong = false) :
    wrongCodes (x :: log) = wrongCodes log := by
  simp [wrongCodes, hc, hw]

theorem Signed.clears_of_wrong (h : x.wrong = true) : x.clears = false := by
  obtain ⟨thread, q, r, clock, before, after⟩ := x
  cases q with
  | confirmPending =>
    cases r with
    | error e => rfl
    | ok email => cases h
  | _ => cases h

theorem eq_five_mul {n : ℕ} (h : n % 5 = 0) (hn : 0 < n) : ∃ k, n = 5 * (k + 1) :=
  ⟨n / 5 - 1, by omega⟩

theorem lock_wrong {a : Administrator} {now : Instant} (hw : x.wrong = true) (hnow : 0 ≤ unix now)
    (hafter : x.after.administrator = some (a.countFailure now)) :
    x.lock = lockAfter (a.codeFailures + 1) now := by
  unfold Signed.lock lockAfter
  rw [if_pos hw, hafter, Option.bind_some]
  unfold Administrator.countFailure
  dsimp only
  split
  · next hfifth =>
    -- a time that is not before 1970 leaves a lock that is not empty
    have hpos : 0 < unix (now + lockTime (a.codeFailures + 1)) := by
      obtain ⟨k, hk⟩ := eq_five_mul hfifth (by omega)
      rw [hk, lockTime_eq, unix_add_minutes]
      have hmin : (0 : ℤ) < min (2 ^ k) 60 := lt_min (by positivity) (by norm_num)
      omega
    rw [if_pos hpos]
  · rfl

theorem countFailure_nonneg {a : Administrator} (h : 0 ≤ a.codeLockedUntil) (now : Instant) :
    0 ≤ (a.countFailure now).codeLockedUntil := by
  unfold Administrator.countFailure
  dsimp only
  generalize (if (a.codeFailures + 1) % 5 = 0 then
    unix (now + lockTime (a.codeFailures + 1)) else 0) = locked
  split
  · next hpos => exact hpos.le
  · exact h

/-- The administrator's row counts the wrong codes, and every lock was over when a
    code was checked, or is the one in the row. -/
structure LockKept (log : List Signed) (s : SignInTables) : Prop where
  failures : ∀ a, s.administrator = some a →
    a.codeFailures = wrongCodes log ∧ 0 ≤ a.codeLockedUntil
  unused : s.administrator = none → wrongCodes log = 0
  past : ∀ d ∈ locks log, (∃ y ∈ log, ∃ now, y.checkedAt = some now ∧ d ≤ unix now) ∨
    ∃ a, s.administrator = some a ∧ d ≤ a.codeLockedUntil
  lasts : ∀ x earlier, x :: earlier <:+ log → x.wrong = true → ∀ now, x.checkedAt = some now →
    x.lock = lockAfter (wrongCodes earlier + 1) now

theorem Commits.lockKept {s : SignInTables} (h : Commits mac log s) : LockKept log s := by
  induction h with
  | nil =>
    exact ⟨by simp, fun _ => rfl, fun d hd => absurd hd List.not_mem_nil,
      fun x earlier hsuffix => absurd (List.suffix_nil.mp hsuffix) (by simp)⟩
  | @cons cfg x log rest _ heffect ih =>
    obtain ⟨hfailures, hunused, hover, hlasts⟩ := ih
    -- what is left to show of the new statement alone
    have hsuffixes : (x.wrong = true → ∀ now, x.checkedAt = some now →
        x.lock = lockAfter (wrongCodes log + 1) now) → ∀ y earlier, y :: earlier <:+ x :: log →
        y.wrong = true → ∀ now, y.checkedAt = some now →
          y.lock = lockAfter (wrongCodes earlier + 1) now := by
      intro hnew y earlier hsuffix
      rcases List.suffix_cons_iff.mp hsuffix with heq | hsuffix
      · cases heq
        exact hnew
      · exact hlasts y earlier hsuffix
    have hlater : ∀ {d : ℤ}, (∃ y ∈ log, ∃ now, y.checkedAt = some now ∧ d ≤ unix now) →
        ∃ y ∈ x :: log, ∃ now, y.checkedAt = some now ∧ d ≤ unix now := by
      rintro d ⟨y, hy, h⟩
      exact ⟨y, List.mem_cons_of_mem _ hy, h⟩
    cases heffect.lockChange with
    | same hwrong hclears hkept hnone =>
      have hlocks : locks (x :: log) = locks log := by
        simp [locks, hclears, Signed.lock, hwrong]
      rw [← wrongCodes_same hclears hwrong] at hfailures hunused
      refine ⟨fun a' ha' => ?_, fun h => hunused (hnone h), fun d hd => ?_,
        hsuffixes (fun hw => by simp [hwrong] at hw)⟩
      · rcases hkept a' ha' with ⟨hnew, hzero, hunlocked⟩ | ⟨a, ha, hsame, hlock⟩
        · exact ⟨by rw [hzero, hunused hnew], hunlocked.ge⟩
        · rw [hsame, hlock]
          exact hfailures a ha
      · refine (hover d (hlocks ▸ hd)).imp hlater ?_
        rintro ⟨a, ha, hle⟩
        obtain ⟨a', ha'⟩ : ∃ a', x.after.administrator = some a' :=
          Option.ne_none_iff_exists'.mp (fun h => by cases (hnone h).symm.trans ha)
        rcases hkept a' ha' with ⟨hnew, -⟩ | ⟨a₀, ha₀, -, hsame⟩
        · cases hnew.symm.trans ha
        · obtain rfl : a₀ = a := Option.some.inj (ha₀.symm.trans ha)
          exact ⟨a', ha', hsame ▸ hle⟩
    | wrong now a hwrong hclears hnow ha hlock hadmin =>
      obtain ⟨hfail, hnonneg⟩ := hfailures a ha
      refine ⟨fun a' ha' => ?_, fun h => (nomatch hadmin.symm.trans h), fun d hd => ?_,
        hsuffixes (fun _ now' hnow' => ?_)⟩
      · obtain rfl := Option.some.inj (hadmin.symm.trans ha')
        rw [wrongCodes_wrong hclears hwrong, ← hfail]
        exact ⟨rfl, countFailure_nonneg hnonneg now⟩
      · rw [locks, hclears, if_neg (by simp), List.mem_append] at hd
        rcases hd with hd | hd
        · refine Or.inr ⟨_, hadmin, ?_⟩
          rw [Option.mem_toList, Signed.lock, if_pos hwrong, hadmin, Option.bind_some] at hd
          split at hd <;> cases hd
          exact le_rfl
        · left
          rcases hover d hd with h | ⟨a', ha', hle⟩
          · exact hlater h
          · -- the lock in the row is over, or the code had not been checked
            obtain rfl : a' = a := Option.some.inj (ha'.symm.trans ha)
            exact ⟨x, List.mem_cons_self, now, hnow, hle.trans hlock⟩
      · obtain rfl : now = now' := Option.some.inj (hnow.symm.trans hnow')
        rw [lock_wrong hwrong (hnonneg.trans hlock) hadmin, hfail]
    | cleared hclears a' ha' hzero hunlocked =>
      have hcount : wrongCodes (x :: log) = 0 := by simp [wrongCodes, hclears]
      refine ⟨fun a ha => ?_, fun _ => hcount, fun d hd => ?_, hsuffixes (fun hw => ?_)⟩
      · obtain rfl := Option.some.inj (ha'.symm.trans ha)
        exact ⟨hzero.trans hcount.symm, hunlocked.ge⟩
      · simp [locks, hclears] at hd
      · cases (Signed.clears_of_wrong hw).symm.trans hclears

/-! ### Attempts -/

/-- How many codes were checked for a password step. -/
def checksFor (id : ℕ) (log : List Signed) : ℕ := log.countP (·.token = some id)

theorem checksFor_other {id : ℕ} (h : x.token ≠ some id) :
    checksFor id (x :: log) = checksFor id log := by
  simp [checksFor, h]

theorem checksFor_same {id : ℕ} (h : x.token = some id) :
    checksFor id (x :: log) = checksFor id log + 1 := by
  simp [checksFor, h]

/-- The token a code is checked for is usable, and has one attempt more afterwards. -/
theorem Effect.spends (h : Effect mac cfg x) {id : ℕ} (hid : x.token = some id)
    (hn : (x.before.authTokens.map AuthToken.id).Nodup) :
    ∃ t ∈ x.before.authTokens, t.id = id ∧ t.purpose = .pending ∧ t.attempts < t.maxAttempts ∧
      ∀ t' ∈ x.after.authTokens, t'.id = id → t.attempts + 1 ≤ t'.attempts := by
  cases h with
  | @quiet x hq =>
    obtain ⟨thread, q, r, clock, before, after⟩ := x
    cases q <;> first | exact hq.elim | cases hid
  | code hash sessionHash now code r a t ha _ hfind husable tokens hspent houtcome =>
    obtain ⟨hmem, hhash⟩ := Table.find_eq_some hfind
    simp only [Signed.token, hfind, Option.map_some] at hid
    cases hid
    refine ⟨t, hmem, rfl, husable.1, husable.2.2.2, fun t' ht' heq => ?_⟩
    rw [houtcome.tokens.1] at ht'
    obtain ⟨t₀, ht₀, hl⟩ := hspent.1.aged.mem ht'
    obtain rfl : t₀ = t := List.inj_on_of_nodup_map hn ht₀ hmem (hl.id ▸ heq)
    exact hspent.2 hn t' ht' (hl.tokenHash.trans hhash) heq
  | _ => cases hid

/-- A token has had at least as many attempts as codes were checked for it. -/
structure AttemptsCounted (log : List Signed) (s : SignInTables) : Prop where
  counted : ∀ t ∈ s.authTokens, checksFor t.id log ≤ t.attempts
  tries : ∀ t ∈ s.authTokens, t.purpose = .pending → t.maxAttempts = codeTries
  fresh : ∀ id, s.nextToken ≤ id → checksFor id log = 0
  few : ∀ id, checksFor id log ≤ codeTries

theorem Commits.attemptsCounted {s : SignInTables} (h : Commits mac log s) :
    AttemptsCounted log s := by
  induction h with
  | nil => exact ⟨by simp, by simp, fun _ _ => rfl, fun _ => Nat.zero_le _⟩
  | @cons cfg x log rest _ heffect ih =>
    obtain ⟨hids, hbelow⟩ := rest.numbered
    obtain ⟨hcounted, htries, hfresh, hfew⟩ := ih
    refine ⟨fun t ht => ?_, fun t ht hpending => ?_, fun id hid => ?_, fun id => ?_⟩
    · by_cases htoken : x.token = some t.id
      · obtain ⟨t₁, ht₁, hid, -, -, hspent⟩ := heffect.spends htoken hids
        rw [checksFor_same htoken]
        have hcount := hcounted t₁ ht₁
        rw [hid] at hcount
        exact (Nat.succ_le_succ hcount).trans (hspent t ht rfl)
      · rw [checksFor_other htoken]
        rcases heffect.token ht with ⟨t₀, ht₀, hl⟩ | ⟨i, parent, -, -, rfl⟩
        · rw [hl.id]
          exact (hcounted t₀ ht₀).trans hl.attempts
        · exact (hfresh _ le_rfl).le
    · rcases heffect.token ht with ⟨t₀, ht₀, hl⟩ | ⟨i, parent, -, -, rfl⟩
      · rw [hl.maxAttempts]
        exact htries t₀ ht₀ (hl.purpose ▸ hpending)
      · have hpurpose : i.purpose = .pending := hpending
        show i.purpose.tries = codeTries
        rw [hpurpose]
        rfl
    · have hle := heffect.nextToken_le.trans hid
      have hother : x.token ≠ some id := by
        intro htoken
        obtain ⟨t, ht, rfl, -⟩ := heffect.spends htoken hids
        exact absurd (hbelow t ht) (not_lt.mpr hle)
      rw [checksFor_other hother]
      exact hfresh id hle
    · by_cases htoken : x.token = some id
      · -- the token had an attempt left
        obtain ⟨t, ht, rfl, hpending, hleft, -⟩ := heffect.spends htoken hids
        rw [checksFor_same htoken, ← htries t ht hpending]
        exact Nat.lt_of_le_of_lt (hcounted t ht) hleft
      · rw [checksFor_other htoken]
        exact hfew id

/-! ### The limits -/

/-- What a log of committed statements says about wrong codes. -/
structure CodesLimited (log : List Signed) : Prop where
  /-- no code is checked while a lock is in force -/
  unlocked : ∀ x between l earlier ends, x :: between ++ l :: earlier <:+ log →
    (∀ y ∈ between, y.clears = false) → l.lock = some ends → x.checkedAt ≠ none →
      ends ≤ unix x.clock
  /-- every fifth wrong code sets a lock, each longer than the one before, up to an hour -/
  lasts : ∀ x earlier now, x :: earlier <:+ log → x.wrong = true → x.checkedAt = some now →
    x.lock = if wrongCodes (x :: earlier) % 5 = 0 then
      some (unix now + 60 * min (2 ^ (wrongCodes (x :: earlier) / 5 - 1)) 60) else none
  /-- at most five wrong codes are checked from the end of a lock to that of the next -/
  between : ∀ later l' between l earlier ends ends',
    later ++ l' :: between ++ l :: earlier <:+ log →
    (∀ y ∈ later ++ l' :: between, y.clears = false) → l.lock = some ends →
    l'.lock = some ends' → (∀ y ∈ between, y.lock = none) →
    (l' :: between).countP (fun y => y.wrong && decide (ends ≤ unix y.clock)) +
      later.countP (fun y => y.wrong && decide (unix y.clock < ends')) ≤ 5
  /-- at most five codes are checked for one password step -/
  attempts : ∀ id, checksFor id log ≤ 5

/-- When a code is checked, all locks so far are over. -/
theorem locks_over {config : Config} {c : Pool History Call}
    (h : (signIn mac steadyClock).Reachable config c) {earlier : List Signed}
    (hsuffix : x :: earlier <:+ c.state.signed) (hx : x.checkedAt ≠ none) {d : ℤ}
    (hd : d ∈ locks earlier) : d ≤ unix x.clock := by
  obtain ⟨now, hnow⟩ := Option.ne_none_iff_exists'.mp hx
  obtain ⟨later, hlog⟩ := hsuffix
  obtain ⟨rest, -, cfg, heffect⟩ := (hlog.symm ▸ signIn_commits h).at
  have hmem : ∀ y ∈ x :: earlier, y ∈ c.state.signed := fun y hy =>
    hlog ▸ List.mem_append_right later hy
  rcases rest.lockKept.past d hd with ⟨y, hy, t, ht, hle⟩ | ⟨a, ha, hle⟩
  · have horder := (clock_ordered h).signed
    rw [← hlog, List.pairwise_append, List.pairwise_cons] at horder
    have hbefore := checkedAt_le h (hmem y (List.mem_cons_of_mem _ hy)) ht
    exact hle.trans (unix_mono (hbefore.trans (horder.2.1.1 y hy)))
  · obtain ⟨a', ha', hlock⟩ := heffect.unlocked hnow
    obtain rfl : a = a' := Option.some.inj (ha.symm.trans ha')
    exact hle.trans (hlock.trans (unix_mono (checkedAt_le h (hmem x List.mem_cons_self) hnow)))

theorem Signed.wrong_of_lock {ends : ℤ} (h : x.lock = some ends) : x.wrong = true := by
  unfold Signed.lock at h
  split at h
  · assumption
  · cases h

theorem Signed.checkedAt_of_wrong (h : x.wrong = true) : ∃ now, x.checkedAt = some now := by
  obtain ⟨thread, q, r, clock, before, after⟩ := x
  cases q with
  | confirmPending hash sessionHash scope now verify => exact ⟨now, rfl⟩
  | _ => cases h

theorem mem_locks {l : Signed} {ends : ℤ} (hl : l.lock = some ends) (earlier : List Signed)
    {between : List Signed} (h : ∀ y ∈ between, y.clears = false) :
    ends ∈ locks (between ++ l :: earlier) := by
  induction between with
  | nil =>
    rw [List.nil_append, locks, Signed.clears_of_wrong (Signed.wrong_of_lock hl), hl]
    simp
  | cons y between ih =>
    rw [List.cons_append, locks, h y List.mem_cons_self, if_neg (by simp), List.mem_append]
    exact Or.inr (ih (fun z hz => h z (List.mem_cons_of_mem _ hz)))

theorem lockAfter_eq (n : ℕ) (now : Instant) : lockAfter (n + 1) now =
    if (n + 1) % 5 = 0 then some (unix now + 60 * min (2 ^ ((n + 1) / 5 - 1)) 60) else none := by
  unfold lockAfter
  split
  · next hfifth =>
    obtain ⟨k, hk⟩ := eq_five_mul hfifth (Nat.succ_pos n)
    rw [hk, lockTime_eq, unix_add_minutes, Nat.mul_div_cancel_left _ (by norm_num),
      Nat.add_sub_cancel]
  · rfl

theorem LockKept.lock_eq {s : SignInTables} (hl : LockKept log s) {earlier : List Signed}
    {now : Instant} (hsuffix : x :: earlier <:+ log) (hw : x.wrong = true)
    (hnow : x.checkedAt = some now) :
    x.lock = if wrongCodes (x :: earlier) % 5 = 0 then
      some (unix now + 60 * min (2 ^ (wrongCodes (x :: earlier) / 5 - 1)) 60) else none := by
  rw [hl.lasts x earlier hsuffix hw now hnow, wrongCodes_wrong (Signed.clears_of_wrong hw) hw,
    lockAfter_eq]

/-- Without a lock there are at most four wrong codes after a multiple of five. -/
theorem LockKept.few_wrong {s : SignInTables} (hl : LockKept log s) {base between : List Signed}
    (hsuffix : between ++ base <:+ log) (hclears : ∀ y ∈ between, y.clears = false)
    (hnone : ∀ y ∈ between, y.lock = none) (hbase : wrongCodes base % 5 = 0) :
    between.countP Signed.wrong ≤ 4 ∧
      wrongCodes (between ++ base) = wrongCodes base + between.countP Signed.wrong := by
  induction between with
  | nil => exact ⟨Nat.zero_le _, rfl⟩
  | cons y between ih =>
    rw [List.cons_append] at hsuffix
    obtain ⟨hfew, hcount⟩ := ih ((List.suffix_cons y _).trans hsuffix)
      (fun z hz => hclears z (List.mem_cons_of_mem _ hz))
      (fun z hz => hnone z (List.mem_cons_of_mem _ hz))
    have hy := hclears y List.mem_cons_self
    cases hw : y.wrong with
    | false =>
      rw [List.cons_append, wrongCodes_same hy hw, List.countP_cons_of_neg (by simp [hw])]
      exact ⟨hfew, hcount⟩
    | true =>
      obtain ⟨now, hnow⟩ := Signed.checkedAt_of_wrong hw
      have hlock := hl.lock_eq hsuffix hw hnow
      rw [List.cons_append, wrongCodes_wrong hy hw, List.countP_cons_of_pos hw]
      rw [hnone y List.mem_cons_self, wrongCodes_wrong hy hw] at hlock
      split at hlock
      · cases hlock
      · omega

/-- A wrong code that is checked after a lock was set is checked after its end. -/
theorem none_before_end {config : Config} {c : Pool History Call}
    (h : (signIn mac steadyClock).Reachable config c) {later earlier : List Signed} {l : Signed}
    {ends : ℤ} (hsuffix : later ++ l :: earlier <:+ c.state.signed)
    (hclears : ∀ y ∈ later, y.clears = false) (hlock : l.lock = some ends) :
    later.countP (fun y => y.wrong && decide (unix y.clock < ends)) = 0 := by
  rw [List.countP_eq_zero]
  intro y hy hcount
  rw [Bool.and_eq_true, decide_eq_true_eq] at hcount
  obtain ⟨a, b, rfl⟩ := List.append_of_mem hy
  rw [List.append_assoc] at hsuffix
  obtain ⟨now, hnow⟩ := Signed.checkedAt_of_wrong hcount.1
  have hends : ends ∈ locks (b ++ l :: earlier) :=
    mem_locks hlock earlier (fun z hz => hclears z (by simp [hz]))
  have hover := locks_over h ((List.suffix_append _ _).trans hsuffix) (by simp [hnow]) hends
  exact absurd hcount.2 (not_lt.mpr hover)

/-- In every history of the sign-in with a clock that never runs backwards, the
    limits on wrong codes hold. -/
theorem codes_limited {mac : Mac} {config : Config} {c : Pool History Call}
    (h : (signIn mac steadyClock).Reachable config c) : CodesLimited c.state.signed := by
  have hl := (signIn_commits h).lockKept
  constructor
  · intro x between l earlier ends hsuffix hclears hlock hx
    exact locks_over h hsuffix hx (mem_locks hlock earlier hclears)
  · intro x earlier now hsuffix hw hnow
    exact hl.lock_eq hsuffix hw hnow
  · intro later l' between l earlier ends ends' hsuffix hclears hlock hlock' hnone
    rw [List.append_assoc] at hsuffix
    have hbetween : between ++ l :: earlier <:+ c.state.signed :=
      (List.suffix_cons l' _).trans ((List.suffix_append later _).trans hsuffix)
    -- the first lock was set at a multiple of five
    have hw := Signed.wrong_of_lock hlock
    obtain ⟨now, hnow⟩ := Signed.checkedAt_of_wrong hw
    have hbase : wrongCodes (l :: earlier) % 5 = 0 := by
      have heq := hl.lock_eq ((List.suffix_append between _).trans hbetween) hw hnow
      rw [hlock] at heq
      split at heq
      · assumption
      · cases heq
    obtain ⟨hfew, -⟩ := hl.few_wrong hbetween (fun y hy => hclears y (by simp [hy])) hnone hbase
    have hsecond := none_before_end h hsuffix (fun y hy => hclears y (by simp [hy])) hlock'
    have hfirst : (l' :: between).countP (fun y => y.wrong && decide (ends ≤ unix y.clock)) ≤
        (l' :: between).countP Signed.wrong :=
      List.countP_mono_left (fun y _ hy => (Bool.and_eq_true _ _ ▸ hy).1)
    rw [List.countP_cons_of_pos (Signed.wrong_of_lock hlock')] at hfirst
    omega
  · exact (signIn_commits h).attemptsCounted.few

def ones : Text := "111111".toList

/-- Five wrong codes for a password step and, once the lock is over, one for another. -/
def wrongSignIn : Schedule :=
  enrolment ++ passwordStep 2 'p' ++ codeStep 3 'p' 'q' ones ++ codeStep 4 'p' 'q' ones ++
  codeStep 5 'p' 'q' ones ++ codeStep 6 'p' 'q' ones ++ codeStep 7 'p' 'q' ones ++
  clockTo (atMinute 2) :: passwordStep 8 'r' ++ codeStep 9 'r' 'q' ones

theorem wrongSignIn_of : ∀ m ∈ wrongSignIn, m.Of (signIn flatMac steadyClock).system := by
  simp only [wrongSignIn, List.forall_mem_append, List.forall_mem_cons]
  refine ⟨⟨⟨⟨⟨⟨⟨⟨?_, ?_⟩, ?_⟩, ?_⟩, ?_⟩, ?_⟩, ?_⟩, ?_, ?_⟩, ?_⟩
  · exact enrolment_of (fun _ _ h => h)
  · exact passwordStep_of _ _
  all_goals first | exact codeStep_of _ _ _ _ | exact passwordStep_of _ _ | skip
  exact clockTo_of (fun _ _ h => h) _

/-- There is a run with a lock and a wrong code after it. -/
theorem codes_limited_after_lock : ∃ c : Pool History Call,
    (signIn flatMac steadyClock).Reachable publicConfig c ∧ wrongCodes c.state.signed = 6 ∧
      locks c.state.signed = [1700000060] ∧ CodesLimited c.state.signed := by
  obtain ⟨c, hreach, hstate⟩ := Circumstances.played_reachable (C := signIn flatMac steadyClock)
    rfl publicConfig wrongSignIn_of
    (f := fun c => (wrongCodes c.state.signed, locks c.state.signed)) (a := (6, [1700000060]))
    (by decide +kernel)
  obtain ⟨hcodes, hlocks⟩ := Prod.mk.inj hstate
  exact ⟨c, hreach, hcodes, hlocks, codes_limited hreach⟩

end Pgfy
