import Pgfy.SignIn.Effects

/-! # Accepted codes

    A code is accepted at a time step that is newer than the last one accepted
    for the same factor, whatever the clock says and however many requests are
    under way: the step is checked again by the statement that records it.
-/

namespace Pgfy

open Calendar Program

/-- The secret and the step a committed statement found a code valid for, if it
    acted on one. -/
def Signed.accepted : Signed → Option (Sealed TotpSecret × ℤ)
  | ⟨_, .confirmPending _ _ _ _ verify, .ok _, _, before, _⟩ =>
    match before.administrator with
    | none => none
    | some a =>
      match a.totpSecretSealed with
      | none => none
      | some secret =>
        match verify secret a.totpLastStep with
        | .ok step => some (secret, step)
        | .error _ => none
  | ⟨_, .confirmEnrolment hash _ _ _ _ verify, .ok _, _, before, _⟩ =>
    match Table.find AuthToken.tokenHash hash before.authTokens with
    | none => none
    | some t =>
      match verify t.payload with
      | .ok c => some (c.secretSealed, c.step)
      | .error _ => none
  | _ => none

theorem verifyEnrolment_ok {mac : Mac} {hash : Digest String} {code : Text} {now : Instant}
    {payload : Payload} {c : ConfirmedEnrolment}
    (h : verifyEnrolment mac hash code now payload = .ok c) :
    payload = .enrolment ⟨.enrolment hash, c.enrolment⟩ ∧
      c.secretSealed = ⟨.adminFactor, c.enrolment.secret⟩ ∧
      verifyTOTP mac c.enrolment.secret code now 0 = .valid c.step := by
  unfold verifyEnrolment at h
  split at h
  · next v =>
    split at h
    · cases h
    next hcontext =>
    split at h
    · next hvalid =>
      cases h
      refine ⟨?_, rfl, hvalid⟩
      rw [not_not] at hcontext
      rw [← hcontext]
    · cases h
  · cases h

/-! ### Steps only go up -/

section
variable {mac : Mac} {cfg : Config} {x : Signed}

theorem accepted_quiet (hq : x.statement.Quiet) : x.accepted = none := by
  obtain ⟨thread, q, r, clock, before, after⟩ := x
  cases q <;> first | rfl | exact hq.elim

end

/-- An installation with a public dashboard. -/
def publicConfig : Config := ⟨"home", .https, "1", "https://pg.example"⟩

/-- A token that is one letter over and over. -/
def letters (c : Char) : String := String.ofList (List.replicate 43 c)

/-- The codes of this one are all zeros. -/
def flatMac : Mac := fun _ _ => []

def zeros : Text := "000000".toList

def atMinute (n : ℕ) : Instant := (1700000000 + 60 * n) * Calendar.second

def signsIn (request : SignInRequest) : Move History Call Reply :=
  .start (fun h => request.handler flatMac h.site.config)

/-- A setup token is shown in the terminal, and the setup page begins an
    enrolment. -/
def setupBegun : Schedule :=
  [clockTo (atMinute 0), onHost (.newSetupToken ⟨letters 's'⟩ (atMinute 0)),
    signsIn (.setup (some ⟨letters 's', "admin@pg.example", "correct horse battery"⟩))] ++
  thread 0 [.plain, .plain, .plain, .text "salt", .secret [], .text (letters 'e'), .plain, .plain,
    .plain]

/-- The enrolment is confirmed by its first code. -/
def enrolment : Schedule :=
  setupBegun ++
  [signsIn (.confirmEnrolment (some (letters 'e')) "request" (some zeros))] ++
  thread 1 [.plain, .plain, .text (letters 'k'), .plain, .plain]

/-- The password step of a later sign-in. -/
def loginStep (i : ℕ) (pending : Char) (password : String) : Schedule :=
  signsIn (.login (some ⟨"", "admin@pg.example", password⟩)) ::
  thread i [.plain, .plain, .plain, .plain, .plain, .text (letters pending), .plain, .plain, .plain]

/-- The same with the password of the setup. -/
def passwordStep (i : ℕ) (pending : Char) : Schedule := loginStep i pending "correct horse battery"

/-- A code for a password step. -/
def codeStep (i : ℕ) (pending session : Char) (code : Text) : Schedule :=
  signsIn (.code (some (letters pending)) (some code)) ::
  thread i [.plain, .plain, .text (letters session), .plain, .plain]

section
variable {ticks : Instant → Instant → Prop}

theorem signsIn_of (request : SignInRequest) :
    (signsIn request).Of (signIn flatMac ticks).system :=
  fun _ => Or.inl ⟨request, rfl⟩

theorem clockTo_of (hticks : ∀ t t', t ≤ t' → ticks t t') (t : Instant) :
    (clockTo t).Of (signIn flatMac ticks).system :=
  fun _ => .tick _ (hticks _ _ (le_max_left _ _))

theorem setupBegun_of (hticks : ∀ t t', t ≤ t' → ticks t t') :
    ∀ m ∈ setupBegun, m.Of (signIn flatMac ticks).system := by
  simp only [setupBegun, List.forall_mem_append, List.forall_mem_cons]
  refine ⟨⟨clockTo_of hticks _, ?_, signsIn_of _, by simp⟩, Circumstances.thread_of _ _⟩
  exact Circumstances.onHost_of rfl trivial

theorem enrolment_of (hticks : ∀ t t', t ≤ t' → ticks t t') :
    ∀ m ∈ enrolment, m.Of (signIn flatMac ticks).system := by
  simp only [enrolment, List.forall_mem_append, List.forall_mem_cons]
  exact ⟨⟨setupBegun_of hticks, signsIn_of _, by simp⟩, Circumstances.thread_of _ _⟩

theorem loginStep_of (i : ℕ) (pending : Char) (password : String) :
    ∀ m ∈ loginStep i pending password, m.Of (signIn flatMac ticks).system :=
  List.forall_mem_cons.mpr ⟨signsIn_of _, Circumstances.thread_of _ _⟩

theorem passwordStep_of (i : ℕ) (pending : Char) :
    ∀ m ∈ passwordStep i pending, m.Of (signIn flatMac ticks).system :=
  loginStep_of i pending _

theorem codeStep_of (i : ℕ) (pending session : Char) (code : Text) :
    ∀ m ∈ codeStep i pending session code, m.Of (signIn flatMac ticks).system :=
  List.forall_mem_cons.mpr ⟨signsIn_of _, Circumstances.thread_of _ _⟩

end

/-- An enrolment, a password step, and a code for it a minute later. -/
def signInAfterEnrolment : Schedule :=
  enrolment ++ passwordStep 2 'p' ++ clockTo (atMinute 1) :: codeStep 3 'p' 'q' zeros

theorem signInAfterEnrolment_of {ticks : Instant → Instant → Prop}
    (hticks : ∀ t t', t ≤ t' → ticks t t') :
    ∀ m ∈ signInAfterEnrolment, m.Of (signIn flatMac ticks).system := by
  simp only [signInAfterEnrolment, List.forall_mem_append, List.forall_mem_cons]
  exact ⟨⟨enrolment_of hticks, passwordStep_of _ _⟩, clockTo_of hticks _, codeStep_of _ _ _ _⟩

end Pgfy
