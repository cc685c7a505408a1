import Pgfy.SignIn.Steps

/-! # What a request of signing in has seen

    Two things about a request can be read off what it asked and was told, in
    whatever order the others come in: a code is checked at a time the clock
    showed while the request ran, and a password step is recorded for the
    password hash the request has read.
-/

namespace Pgfy

open Calendar Program

variable {mac : Mac} {c : Pool History Call} {config : Config} {seen : List (Exchange Call)}
  {ticks : Instant → Instant → Prop}

/-! ### Careful requests -/

/-- The time the clock showed. -/
def reading : Exchange Call → Option Instant
  | ⟨.now, t⟩ => some t
  | _ => none

/-- The time a code is checked at. -/
def checkedAt : Exchange Call → Option Instant
  | ⟨.auth (.confirmPending _ _ _ now _), _⟩ => some now
  | _ => none

/-- The password hash that was read. -/
def passwordRead : Exchange Call → Option PasswordHash
  | ⟨.auth (.password _), .ok (some hash)⟩ => some hash
  | _ => none

/-- The password hash a password step is recorded for. -/
def passwordPassed : Exchange Call → Option PasswordHash
  | ⟨.auth (.beginPending _ hash _ _), _⟩ => some hash
  | _ => none

/-- No other password hash was read. -/
def OnlyRead (hash : PasswordHash) (seen : List (Exchange Call)) : Prop :=
  ∀ e ∈ seen, ∀ hash', passwordRead e = some hash' → hash' = hash

/-- No password step was recorded. -/
def NonePassed (seen : List (Exchange Call)) : Prop := ∀ e ∈ seen, passwordPassed e = none

/-- A code is checked at a time that was read before, a password step is
    recorded for the one hash that was read. -/
def Careful : List (Exchange Call) → Prop
  | [] => True
  | e :: seen => Careful seen ∧
    (∀ now, checkedAt e = some now → ∃ e' ∈ seen, reading e' = some now) ∧
    (∀ hash, passwordPassed e = some hash → OnlyRead hash seen) ∧
    (∀ hash, passwordRead e = some hash → NonePassed seen)

theorem OnlyRead.cons {hash : PasswordHash} {e : Exchange Call} (h : OnlyRead hash seen)
    (he : ∀ hash', passwordRead e = some hash' → hash' = hash) : OnlyRead hash (e :: seen) :=
  List.forall_mem_cons.mpr ⟨he, h⟩

theorem OnlyRead.cons_none {hash : PasswordHash} {e : Exchange Call} (h : OnlyRead hash seen)
    (he : passwordRead e = none) : OnlyRead hash (e :: seen) :=
  h.cons (fun _ hh => absurd (he.symm.trans hh) (by simp))

theorem onlyRead_nil (hash : PasswordHash) : OnlyRead hash [] :=
  fun _ he => absurd he List.not_mem_nil

/-- A call that does not matter here. -/
def Indifferent ⦃β : Type⦄ (c : Call β) : Prop :=
  ∀ r, checkedAt ⟨c, r⟩ = none ∧ passwordRead ⟨c, r⟩ = none ∧ passwordPassed ⟨c, r⟩ = none

theorem Careful.indifferent {β : Type} {c : Call β} (hc : Indifferent c) (r : β)
    (h : Careful seen) : Careful (⟨c, r⟩ :: seen) := by
  obtain ⟨h₁, h₂, h₃⟩ := hc r
  exact ⟨h, fun _ hh => absurd (h₁.symm.trans hh) (by simp),
    fun _ hh => absurd (h₃.symm.trans hh) (by simp),
    fun _ hh => absurd (h₂.symm.trans hh) (by simp)⟩

/-- Whatever was seen before, indifferent calls keep a journal careful. -/
theorem keeps_indifferent {α : Type} {p : Run α} (hp : p.Calls Indifferent)
    (seen : List (Exchange Call)) : Keeps Careful p (fun _ _ => True) seen :=
  Keeps.of_calls (fun _ _ hc _ r h => h.indifferent hc r) hp

theorem Call.Fits.indifferent {cfg : Config} {β : Type} {c : Call β} (h : c.Fits mac cfg false) :
    Indifferent c := by
  intro r
  cases c with
  | auth q =>
    cases q with
    | password => cases h
    | beginPending => exact absurd h.2 (by simp)
    | confirmPending => exact absurd h.2.2 (by simp)
    | _ => exact ⟨rfl, rfl, rfl⟩
  | _ => exact ⟨rfl, rfl, rfl⟩

theorem keeps_fits {cfg : Config} {α : Type} {p : Run α} (hp : p.Calls (Call.Fits mac cfg false))
    (seen : List (Exchange Call)) : Keeps Careful p (fun _ _ => True) seen :=
  keeps_indifferent (hp.mono (fun _ _ hc => hc.indifferent)) seen

/-- An indifferent call, and what follows it. -/
theorem keeps_ask {α β : Type} {c : Call β} {f : β → Run α} (hc : Indifferent c)
    (h : ∀ r, Keeps Careful (f r) (fun _ _ => True) (⟨c, r⟩ :: seen)) :
    Keeps Careful (Prog.bind (Prog.ask c) f) (fun _ _ => True) seen :=
  Keeps.ask (fun hseen r => ⟨hseen.indifferent hc r, h r⟩)

section
variable (mac : Mac) (cfg : Config)

theorem keeps_failure (status : ℕ) (code : String) (seen : List (Exchange Call)) :
    Keeps Careful (failure status code) (fun _ _ => True) seen :=
  keeps_indifferent (.ask (fun _ => ⟨rfl, rfl, rfl⟩)) seen

theorem keeps_respond (status : ℕ) (seen : List (Exchange Call)) :
    Keeps Careful (respond status) (fun _ _ => True) seen :=
  keeps_indifferent (.ask (fun _ => ⟨rfl, rfl, rfl⟩)) seen

theorem confirmCode_keeps (pending : Option String) (body : Option Text) :
    Keeps Careful (confirmCode mac cfg pending body) (fun _ _ => True) [] := by
  unfold confirmCode
  split
  · exact keeps_failure _ _ _
  apply keeps_ask (fun _ => ⟨rfl, rfl, rfl⟩)
  intro allowed
  split
  · split
    · exact keeps_failure _ _ _
    apply keeps_ask (fun _ => ⟨rfl, rfl, rfl⟩)
    intro now
    apply keeps_ask (fun _ => ⟨rfl, rfl, rfl⟩)
    intro session
    apply Keeps.ask
    intro hseen outcome
    refine ⟨⟨hseen, ?_, fun _ h => (nomatch h), fun _ h => (nomatch h)⟩, ?_⟩
    · rintro _ ⟨⟩
      exact ⟨⟨.now, now⟩, by simp, rfl⟩
    · have hcalls : (codeOutcome "code_expired" outcome).Calls (Call.Fits mac cfg false) :=
        codeOutcome_calls Call.Foreign.fits _ _
      exact keeps_fits hcalls _
  · exact keeps_failure _ _ _

/-- After a password hash was read, a password step is recorded for no other. -/
theorem afterPassword_keeps (email : String) (hash : PasswordHash) (hread : OnlyRead hash seen) :
    Keeps Careful (afterPassword cfg email hash) (fun _ _ => True) seen := by
  apply keeps_ask (fun _ => ⟨rfl, rfl, rfl⟩)
  intro current
  split
  · exact keeps_failure _ _ _
  next enrolled current =>
  split
  · exact keeps_failure _ _ _
  next hsame =>
  split
  · apply keeps_ask (fun _ => ⟨rfl, rfl, rfl⟩)
    intro pending
    apply keeps_ask (fun _ => ⟨rfl, rfl, rfl⟩)
    intro now
    apply Keeps.ask
    intro hseen begun
    refine ⟨⟨hseen, fun _ h => (nomatch h), ?_, fun _ h => (nomatch h)⟩, ?_⟩
    · rintro _ ⟨⟩
      rw [not_not.mp hsame]
      exact ((hread.cons_none rfl).cons_none rfl).cons_none rfl
    · split
      · exact keeps_respond _ _
      · exact keeps_failure _ _ _
  split
  · next hmode =>
    have hcalls : (startEnrolment cfg (.upgrade email ⟨current⟩) .beginUpgrade).Calls
        (Call.Fits (fun _ _ => []) cfg false) :=
      startEnrolment_calls Call.Foreign.fits cfg _ _
        (fun _ secret _ => ⟨hmode, email, ⟨current⟩, secret, rfl⟩)
    exact keeps_fits hcalls _
  apply keeps_ask (fun _ => ⟨rfl, rfl, rfl⟩)
  intro token
  apply keeps_ask (fun _ => ⟨rfl, rfl, rfl⟩)
  intro now
  apply keeps_ask (fun _ => ⟨rfl, rfl, rfl⟩)
  intro done
  split
  · exact keeps_respond _ _
  all_goals exact keeps_failure _ _ _

theorem login_keeps (body : Option Credentials) :
    Keeps Careful (login cfg body) (fun _ _ => True) [] := by
  apply keeps_ask (fun _ => ⟨rfl, rfl, rfl⟩)
  intro allowed
  split
  · apply keeps_ask (fun _ => ⟨rfl, rfl, rfl⟩)
    intro slot
    split
    · split
      · exact keeps_failure _ _ _
      apply keeps_ask (fun _ => ⟨rfl, rfl, rfl⟩)
      intro email
      apply Keeps.ask
      intro hseen hash
      -- nothing was passed before the password is read
      refine ⟨⟨hseen, fun _ h => (nomatch h), fun _ h => (nomatch h), fun _ _ => ?_⟩, ?_⟩
      · simp only [NonePassed, List.forall_mem_cons]
        exact ⟨rfl, rfl, rfl, fun _ he => absurd he List.not_mem_nil⟩
      · split
        · exact keeps_failure _ _ _
        · exact keeps_failure _ _ _
        next hash =>
        split
        · apply afterPassword_keeps
          refine ((((onlyRead_nil hash).cons_none rfl).cons_none rfl).cons_none rfl).cons ?_
          rintro _ ⟨⟩
          rfl
        · exact keeps_failure _ _ _
    · exact keeps_failure _ _ _
  · exact keeps_failure _ _ _

/-- Every request of signing in is careful. -/
theorem handler_keeps (request : SignInRequest) :
    Keeps Careful (request.handler mac cfg) (fun _ _ => True) [] := by
  have hfits := handler_fits mac cfg request
  cases request with
  | login body => exact login_keeps cfg body
  | code pending body => exact confirmCode_keeps mac cfg pending body
  | _ => exact keeps_fits hfits _

end

/-! ### The journals of a run -/

/-- What every program of signing in keeps its journal in, every thread of
    every run does. -/
theorem signIn_journals {I : List (Exchange Call) → Prop} (hI : I [])
    (hrequest : ∀ cfg (request : SignInRequest),
      Keeps I (request.handler mac cfg) (fun _ _ => True) [])
    (hforeign : ∀ p : Run Unit, p.Calls Call.Foreign → Keeps I p (fun _ _ => True) [])
    (h : (signIn mac ticks).Reachable config c) (i : ℕ) : I (c.state.journal i) := by
  refine Reaches.journals (fun i h => History.journal h i) hI ?_ ?_ ?_ ?_ (fun _ => rfl) h i
  · rintro s p (⟨request, rfl⟩ | hp)
    · exact hrequest s.site.config request
    · exact hforeign p hp
  · rintro i β s _ c r ⟨s', -, rfl⟩
    refine ⟨by rw [journal_add, if_pos rfl], fun j hj => ?_⟩
    rw [journal_add, if_neg (fun h => hj (Option.some.inj h).symm)]
  · rintro s _ (⟨t, ht⟩ | ⟨t, ht, hs⟩ | ⟨c, hc, i, r, s', hr⟩) j
    · rfl
    · rfl
    · rw [journal_add, if_neg (by simp)]
  · rintro n s _ new ⟨config, -, rfl, hboots⟩
    exact ⟨fun _ => rfl, fun p hp => hforeign p (hboots p hp)⟩

/-- In every run, every thread's journal is careful. -/
theorem signIn_careful (h : (signIn mac ticks).Reachable config c) (i : ℕ) :
    Careful (c.state.journal i) := by
  refine signIn_journals trivial (handler_keeps mac) (fun p hp => ?_) h i
  have hcalls : p.Calls (Call.Fits mac config false) := hp.mono Call.Foreign.fits
  exact keeps_fits hcalls _

def Signed.exchange (x : Signed) : Exchange Call := ⟨.auth x.statement, .ok x.result⟩

theorem Note.signed_exchange {n : Note} {x : Signed} (h : n.signed = some x) :
    n.exchange = x.exchange ∧ n.thread = x.thread ∧ x.clock = n.before.clock := by
  obtain ⟨thread, c, r, before, after⟩ := n
  cases c with
  | auth q =>
    cases r with
    | error e => cases h
    | ok a =>
      cases h
      exact ⟨rfl, rfl, rfl⟩
  | _ => cases h

theorem mem_journal {h : History} {x : Signed} (hx : x ∈ h.signed) {i : ℕ}
    (hi : x.thread = some i) : x.exchange ∈ h.journal i := by
  obtain ⟨n, hn, hsigned⟩ := List.mem_filterMap.mp hx
  obtain ⟨hexchange, hthread, -⟩ := Note.signed_exchange hsigned
  refine List.mem_map.mpr ⟨n, List.mem_filter.mpr ⟨hn, ?_⟩, hexchange⟩
  simpa using hthread.trans hi

/-- What no thread has asked is a command on the host. -/
theorem host_notes (h : (signIn mac ticks).Reachable config c) :
    ∀ n ∈ c.state.log, n.thread = none → HostCommand n.call := by
  refine Circumstances.invariant (P := fun h => ∀ n ∈ h.log, n.thread = none → HostCommand n.call)
    (by simp) ?_ h
  intro h h' hmove hr
  cases hmove with
  | call thread c hhost i r s _ =>
    intro n hn hnone
    rcases List.mem_cons.mp hn with rfl | hn
    · exact hhost hnone
    · exact hr n hn hnone
  | _ => exact hr

/-- The password hash a step is recorded for is the one the request has read. -/
theorem Careful.agree (h : Careful seen) {e e' : Exchange Call} (he : e ∈ seen) (he' : e' ∈ seen)
    {hash hash' : PasswordHash} (hpassed : passwordPassed e = some hash)
    (hread : passwordRead e' = some hash') : hash' = hash := by
  induction seen with
  | nil => cases he
  | cons e₀ seen ih =>
    obtain ⟨hseen, -, honly, hnone⟩ := h
    rcases List.mem_cons.mp he with rfl | hmem
    · rcases List.mem_cons.mp he' with rfl | hmem'
      · -- one call does not do both
        obtain ⟨c, r⟩ := e'
        cases c with
        | auth q =>
          cases q with
          | beginPending => cases hread
          | _ => cases hpassed
        | _ => cases hpassed
      · exact honly hash hpassed e' hmem' hash' hread
    · rcases List.mem_cons.mp he' with rfl | hmem'
      · have hfree := hnone hash' hread e hmem
        exact absurd (hfree.symm.trans hpassed) (by simp)
      · exact ih hseen hmem hmem'

/-! ### Password steps and resets are different requests -/

/-- A reset is begun. -/
def beginsReset : Exchange Call → Bool
  | ⟨.auth (.beginReset _ _ _ _), _⟩ => true
  | _ => false

/-- A request that reads the password does not begin a reset. -/
def SingleMinded (seen : List (Exchange Call)) : Prop :=
  (∀ e ∈ seen, passwordRead e = none) ∨ (∀ e ∈ seen, beginsReset e = false)

theorem keeps_singleMinded {cfg : Config} {p : Run Unit} {steps : Bool}
    (h : p.Calls (Call.Fits mac cfg steps)) : Keeps SingleMinded p (fun _ _ => True) [] := by
  cases steps with
  | false =>
    refine Keeps.widen (fun _ => Or.inl) (fun e he => absurd he List.not_mem_nil)
      (Keeps.of_calls (fun β c hc seen r hseen => List.forall_mem_cons.mpr ⟨?_, hseen⟩) h)
    exact (hc.indifferent r).2.1
  | true =>
    refine Keeps.widen (fun _ => Or.inr) (fun e he => absurd he List.not_mem_nil)
      (Keeps.of_calls (fun β c hc seen r hseen => List.forall_mem_cons.mpr ⟨?_, hseen⟩) h)
    cases c with
    | auth q =>
      cases q with
      | beginReset => exact absurd hc.1 (by simp)
      | _ => rfl
    | _ => rfl

theorem signIn_singleMinded (h : (signIn mac ticks).Reachable config c) (i : ℕ) :
    SingleMinded (c.state.journal i) := by
  refine signIn_journals (Or.inl (fun e he => absurd he List.not_mem_nil))
    (fun cfg request => keeps_singleMinded (handler_fits mac cfg request)) (fun p hp => ?_) h i
  have hcalls : p.Calls (Call.Fits mac config false) := hp.mono Call.Foreign.fits
  exact keeps_singleMinded hcalls

/-- A request that has read a password begins no reset, and records a password
    step for that password only. -/
theorem password_request (h : (signIn mac ticks).Reachable config c) {w z : Signed}
    (hw : w ∈ c.state.signed) (hz : z ∈ c.state.signed) (hthread : w.thread = z.thread)
    {hash : PasswordHash} (hread : passwordRead w.exchange = some hash) :
    beginsReset z.exchange = false ∧ ∀ hash', passwordPassed z.exchange = some hash' →
      hash = hash' := by
  cases hi : w.thread with
  | none =>
    -- no command on the host reads a password
    obtain ⟨n, hn, hsigned⟩ := List.mem_filterMap.mp hw
    obtain ⟨hexchange, hsame, -⟩ := Note.signed_exchange hsigned
    have hcommand := host_notes h n hn (hsame.trans hi)
    rw [← hexchange] at hread
    obtain ⟨thread, c, r, before, after⟩ := n
    cases c with
    | auth q => cases q <;> first | exact hcommand.elim | cases hread
    | _ => cases hread
  | some i =>
    have hwj := mem_journal hw hi
    have hzj := mem_journal hz (hthread ▸ hi)
    constructor
    · rcases signIn_singleMinded h i with hnone | hnone
      · exact absurd ((hnone _ hwj).symm.trans hread) (by simp)
      · exact hnone _ hzj
    · intro hash' hpassed
      exact (signIn_careful h i).agree hzj hwj hpassed hread

/-! ### Codes are checked at a time the clock has shown -/

/-- The log in the order of a clock that never runs backwards. -/
structure ClockOrdered (h : History) : Prop where
  order : h.log.Pairwise (fun n m => m.before.clock ≤ n.before.clock)
  now : ∀ n ∈ h.log, n.before.clock ≤ h.site.clock
  readings : ∀ n ∈ h.log, ∀ t, reading n.exchange = some t → t = n.before.clock

/-- The time a committed statement checks a code at. -/
def Signed.checkedAt : Signed → Option Instant
  | ⟨_, .confirmPending _ _ _ now _, _, _, _, _⟩ => some now
  | _ => none

theorem reading_answer {fails : Faults} {i : ℕ} {β : Type} {c : Call β} {s s' : Site} {r : β}
    (hr : Site.Replies fails i c s r s') {t : Instant} (ht : reading ⟨c, r⟩ = some t) :
    t = s.clock := by
  cases c with
  | now =>
    cases ht
    exact hr.1
  | _ => cases ht

theorem clock_ordered (h : (signIn mac steadyClock).Reachable config c) : ClockOrdered c.state := by
  refine Circumstances.invariant (P := ClockOrdered) ⟨.nil, by simp, by simp⟩ ?_ h
  intro h h' hmove hr
  cases hmove with
  | call thread c _ i r s hreply =>
    have hclock : (h.add thread c r s).site.clock = h.site.clock := hreply.config.2.2
    refine ⟨List.pairwise_cons.mpr ⟨hr.now, hr.order⟩, fun n hn => ?_, fun n hn => ?_⟩
    · rw [hclock]
      rcases List.mem_cons.mp hn with rfl | hn
      · exact le_rfl
      · exact hr.now n hn
    · rcases List.mem_cons.mp hn with rfl | hn
      · exact fun t => reading_answer hreply
      · exact hr.readings n hn
  | tick t ht => exact ⟨hr.order, fun n hn => (hr.now n hn).trans ht, hr.readings⟩
  | load t | restart config => exact ⟨hr.order, hr.now, hr.readings⟩

theorem ClockOrdered.signed {h : History} (ho : ClockOrdered h) :
    h.signed.Pairwise (fun x y => y.clock ≤ x.clock) := by
  refine List.Pairwise.filterMap Note.signed (fun n m hle x hx y hy => ?_) ho.order
  rw [(Note.signed_exchange hx).2.2, (Note.signed_exchange hy).2.2]
  exact hle

theorem Careful.suffix {later earlier : List (Exchange Call)} (h : Careful (later ++ earlier)) :
    Careful earlier := by
  induction later with
  | nil => exact h
  | cons e later ih => exact ih h.1

theorem Signed.checkedAt_exchange (x : Signed) : Pgfy.checkedAt x.exchange = x.checkedAt := by
  obtain ⟨thread, q, r, clock, before, after⟩ := x
  cases q <;> rfl

/-- A code is checked at a time that is not in the future. -/
theorem checkedAt_le (h : (signIn mac steadyClock).Reachable config c) {x : Signed}
    (hx : x ∈ c.state.signed) {now : Instant} (hnow : x.checkedAt = some now) : now ≤ x.clock := by
  obtain ⟨n, hn, hsigned⟩ := List.mem_filterMap.mp hx
  obtain ⟨hexchange, -, hclock⟩ := Note.signed_exchange hsigned
  have hcheck : Pgfy.checkedAt n.exchange = some now := by
    rw [hexchange, x.checkedAt_exchange, hnow]
  obtain ⟨horder, -, hreadings⟩ := clock_ordered h
  cases hthread : n.thread with
  | none =>
    -- no command on the host checks a code
    have hcommand := host_notes h n hn hthread
    obtain ⟨thread, c, r, before, after⟩ := n
    cases c with
    | auth q => cases q <;> first | exact hcommand.elim | cases hcheck
    | _ => cases hcheck
  | some i =>
    have hcareful := signIn_careful h i
    obtain ⟨later, earlier, hlog⟩ := List.append_of_mem hn
    rw [History.journal, hlog, List.filter_append, List.filter_cons_of_pos (by simpa using hthread),
      List.map_append, List.map_cons] at hcareful
    obtain ⟨-, hread, -⟩ := hcareful.suffix
    obtain ⟨e, he, ht⟩ := hread now hcheck
    obtain ⟨m, hm, rfl⟩ := List.mem_map.mp he
    have hm := (List.mem_filter.mp hm).1
    rw [hlog, List.pairwise_append, List.pairwise_cons] at horder
    rw [hclock, hreadings m (hlog ▸ List.mem_append_right _ (List.mem_cons_of_mem _ hm)) now ht]
    exact horder.2.1.1 m hm

end Pgfy
