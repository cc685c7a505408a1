import Mathlib

/-! # Programs over calls

    A program is a tree of calls to its surroundings: it returns a value, or
    makes a call and goes on with the answer it gets. What a call does to the
    state, and which answers it may get, is said separately, so one program can
    be run under several semantics (with faults, with an adversary, with
    nothing but itself).

    This module has the monad of programs, the one of programs that may fail,
    partial runs (`Trace`), and a rely-guarantee judgment `Safe` that covers
    every partial run.
-/

universe u v

namespace Program

/-! ## Programs -/

/-- A program that makes calls and returns a value. -/
inductive Prog (Call : Type → Type u) (α : Type) : Type (max 1 u)
  | ret (a : α) : Prog Call α
  | call {β : Type} (c : Call β) (next : β → Prog Call α) : Prog Call α

variable {Call : Type → Type u} {α β ε : Type}

namespace Prog

/-- Sequential composition. -/
def bind : Prog Call α → (α → Prog Call β) → Prog Call β
  | ret a, f => f a
  | call c next, f => call c (fun r => (next r).bind f)

instance : Monad (Prog Call) where
  pure := ret
  bind := bind

/-- A single call. -/
def ask (c : Call α) : Prog Call α := call c ret

end Prog

/-- A program that may fail with an error. -/
def Action (ε : Type) (Call : Type → Type u) (α : Type) : Type (max 1 u) :=
  Prog Call (Except ε α)

namespace Action

/-- Goes on after success; an error ends the program. -/
def bind (x : Action ε Call α) (f : α → Action ε Call β) : Action ε Call β :=
  Prog.bind x (fun r => match r with
    | .ok a => f a
    | .error e => .ret (.error e))

instance : Monad (Action ε Call) where
  pure a := Prog.ret (.ok a)
  bind := bind

/-- Ends the program with an error. -/
def fail (e : ε) : Action ε Call α := Prog.ret (.error e)

/-- A program that cannot fail, as a step of one that can. -/
def lift (p : Prog Call α) : Action ε Call α := p.bind (fun a => .ret (.ok a))

/-- Runs a step and hands its outcome, error or not, to what follows. -/
def attempt (x : Action ε Call α) : Action ε Call (Except ε α) := lift x

/-- Runs `f` for each element in turn, up to the first error. -/
def forEach (f : β → Action ε Call Unit) : List β → Action ε Call Unit
  | [] => pure ()
  | b :: rest => bind (f b) (fun _ => forEach f rest)

end Action

/-! ## Partial runs -/

/-- What a call may answer in a state, and the state it leaves. -/
abbrev Answers (σ : Type v) (Call : Type → Type u) :=
  ∀ ⦃β : Type⦄, σ → Call β → β → σ → Prop

/-- A run of a program that has got some way: `none` if it has stopped between
    two calls, as a process that dies does, `some a` if it has returned `a`.
    Between calls others may change the state by `env`. -/
inductive Trace {σ : Type v} (answer : Answers σ Call) (env : σ → σ → Prop) :
    Prog Call α → σ → Option α → σ → Prop
  | stop (p : Prog Call α) (s : σ) : Trace answer env p s none s
  | ret (a : α) (s : σ) : Trace answer env (.ret a) s (some a) s
  | env {p : Prog Call α} {s s' t : σ} {o : Option α} (h : env s s')
      (rest : Trace answer env p s' o t) : Trace answer env p s o t
  | call {β : Type} {c : Call β} {next : β → Prog Call α} {s s' t : σ} {r : β} {o : Option α}
      (h : answer s c r s') (rest : Trace answer env (next r) s' o t) :
      Trace answer env (.call c next) s o t

/-- If every call has an answer, every program has a run to its end. -/
theorem exists_trace {σ : Type v} {answer : Answers σ Call} {env : σ → σ → Prop}
    (total : ∀ ⦃β : Type⦄ (s : σ) (c : Call β), ∃ r s', answer s c r s')
    (p : Prog Call α) (s : σ) : ∃ a t, Trace answer env p s (some a) t := by
  induction p generalizing s with
  | ret a => exact ⟨a, s, Trace.ret a s⟩
  | call c next ih =>
    obtain ⟨r, s', h⟩ := total s c
    obtain ⟨a, t, rest⟩ := ih r s'
    exact ⟨a, t, Trace.call h rest⟩

/-- Runs a program to its end where each call has one answer. -/
def Prog.run {σ : Type v} (step : ∀ ⦃β : Type⦄, σ → Call β → β × σ) : Prog Call α → σ → α × σ
  | .ret a, s => (a, s)
  | .call c next, s => (next (step s c).1).run step (step s c).2

theorem Prog.run_trace {σ : Type v} {answer : Answers σ Call} {env : σ → σ → Prop}
    {step : ∀ ⦃β : Type⦄, σ → Call β → β × σ}
    (h : ∀ ⦃β : Type⦄ (s : σ) (c : Call β), answer s c (step s c).1 (step s c).2)
    (p : Prog Call α) (s : σ) :
    Trace answer env p s (some (p.run step s).1) (p.run step s).2 := by
  induction p generalizing s with
  | ret a => exact Trace.ret a s
  | call c next ih => exact Trace.call (h s c) (ih _ _)

/-- The same for a program that dies after a number of calls. -/
def Prog.runFor {σ : Type v} (step : ∀ ⦃β : Type⦄, σ → Call β → β × σ) :
    ℕ → Prog Call α → σ → Option α × σ
  | _, .ret a, s => (some a, s)
  | 0, .call _ _, s => (none, s)
  | n + 1, .call c next, s => (next (step s c).1).runFor step n (step s c).2

theorem Prog.runFor_trace {σ : Type v} {answer : Answers σ Call} {env : σ → σ → Prop}
    {step : ∀ ⦃β : Type⦄, σ → Call β → β × σ}
    (h : ∀ ⦃β : Type⦄ (s : σ) (c : Call β), answer s c (step s c).1 (step s c).2)
    (n : ℕ) (p : Prog Call α) (s : σ) :
    Trace answer env p s (p.runFor step n s).1 (p.runFor step n s).2 := by
  induction n generalizing p s with
  | zero => cases p with
    | ret a => exact Trace.ret a s
    | call c next => exact Trace.stop _ s
  | succ n ih => cases p with
    | ret a => exact Trace.ret a s
    | call c next => exact Trace.call (h s c) (ih _ _)

/-- Runs a program to its end with a list of hints, one for each call, that say
    which of its answers it gets. -/
def Prog.follow {σ : Type v} {κ : Type} (step : ∀ ⦃β : Type⦄, κ → σ → Call β → Option (β × σ)) :
    Prog Call α → List κ → σ → Option (α × σ)
  | .ret a, _, s => some (a, s)
  | .call _ _, [], _ => none
  | .call c next, k :: ks, s => (step k s c).bind (fun x => (next x.1).follow step ks x.2)

theorem Prog.follow_trace {σ : Type v} {κ : Type} {answer : Answers σ Call} {env : σ → σ → Prop}
    {step : ∀ ⦃β : Type⦄, κ → σ → Call β → Option (β × σ)}
    (h : ∀ ⦃β : Type⦄ (k : κ) (s : σ) (c : Call β) (r : β) (s' : σ),
      step k s c = some (r, s') → answer s c r s')
    {p : Prog Call α} {ks : List κ} {s t : σ} {a : α} (hp : p.follow step ks s = some (a, t)) :
    Trace answer env p s (some a) t := by
  induction p generalizing ks s with
  | ret b =>
    cases hp
    exact Trace.ret _ _
  | call c next ih =>
    cases ks with
    | nil => cases hp
    | cons k ks =>
      obtain ⟨x, hx, hnext⟩ := Option.bind_eq_some_iff.mp hp
      exact Trace.call (h k s c x.1 x.2 hx) (ih x.1 hnext)

/-! ## Rely and guarantee -/

/-- What a program may assume and must keep to: the invariant of all states,
    what others may do between its calls, and what its own calls may do. -/
structure Setting (σ : Type v) (Call : Type → Type u) where
  answer : Answers σ Call
  inv : σ → Prop
  rely : σ → σ → Prop
  guar : σ → σ → Prop
  rely_refl : ∀ s, rely s s
  rely_trans : ∀ {s t u}, rely s t → rely t u → rely s u

variable {σ : Type v}

/-- Every run of the program from `s` keeps the invariant and the guarantee at
    each of its calls, and ends in a state with `Q`, whatever others do in
    between. -/
def Safe (S : Setting σ Call) : Prog Call α → (α → σ → Prop) → σ → Prop
  | .ret a, Q, s => ∀ s', S.rely s s' → S.inv s' → Q a s'
  | .call c next, Q, s => ∀ s', S.rely s s' → S.inv s' → ∀ r s'', S.answer s' c r s'' →
      S.inv s'' ∧ S.guar s' s'' ∧ Safe S (next r) Q s''

namespace Safe

variable {S : Setting σ Call} {p : Prog Call α} {Q Q' : α → σ → Prop} {s t : σ}

/-- What is known at the end may be replaced there. -/
theorem ending (hQ : ∀ a s, Safe S (.ret a) Q s → Safe S (.ret a) Q' s) (h : Safe S p Q s) :
    Safe S p Q' s := by
  induction p generalizing s with
  | ret a => exact hQ a s h
  | call c next ih =>
    intro s' hr hi r s'' ha
    obtain ⟨hi', hg, hnext⟩ := h s' hr hi r s'' ha
    exact ⟨hi', hg, ih r hnext⟩

theorem mono (hQ : ∀ a s, Q a s → Q' a s) (h : Safe S p Q s) : Safe S p Q' s :=
  ending (fun a _ h s' hr hi => hQ a s' (h s' hr hi)) h

/-- What others do before the next call does not matter. -/
theorem stable (h : Safe S p Q s) (hr : S.rely s t) : Safe S p Q t := by
  cases p with
  | ret a | call c next =>
    intro s' hr' hi
    exact h s' (S.rely_trans hr hr') hi

/-- What holds at the end holds whatever others do afterwards. -/
theorem settled (h : Safe S p Q s) :
    Safe S p (fun a s' => ∀ s'', S.rely s' s'' → S.inv s'' → Q a s'') s :=
  ending (fun _ _ h _ hr _ s'' hr' hi => h s'' (S.rely_trans hr hr') hi) h

/-- The invariant holds at the end, too. -/
theorem with_inv (h : Safe S p Q s) : Safe S p (fun a s' => Q a s' ∧ S.inv s') s :=
  ending (fun _ _ h s' hr hi => ⟨h s' hr hi, hi⟩) h

/-- It is enough to look at the states others may lead to. -/
theorem of_later (h : ∀ s', S.rely s s' → S.inv s' → Safe S p Q s') : Safe S p Q s := by
  cases p with
  | ret a | call c next =>
    intro s' hr hi
    exact h s' hr hi s' (S.rely_refl s') hi

theorem bind {f : α → Prog Call β} {Q : β → σ → Prop}
    (h : Safe S p (fun a s' => Safe S (f a) Q s') s) : Safe S (p.bind f) Q s := by
  induction p generalizing s with
  | ret a => exact of_later (fun s' hr hi => h s' hr hi)
  | call c next ih =>
    intro s' hr hi r s'' ha
    obtain ⟨hi', hg, hnext⟩ := h s' hr hi r s'' ha
    exact ⟨hi', hg, ih r hnext⟩

theorem ret {a : α} (h : ∀ s', S.rely s s' → S.inv s' → Q a s') : Safe S (.ret a) Q s := h

/-- The rule for a call on its own. -/
theorem ask {c : Call α} (h : ∀ s', S.rely s s' → S.inv s' → ∀ r s'', S.answer s' c r s'' →
    S.inv s'' ∧ S.guar s' s'' ∧ ∀ t, S.rely s'' t → S.inv t → Q r t) :
    Safe S (Prog.ask c) Q s := h

/-- The rule for a step that may fail: its error is the program's. -/
theorem bindAction {x : Action ε Call α} {f : α → Action ε Call β} {Q : Except ε β → σ → Prop}
    (h : Safe S x (fun r s' => match r with
      | .ok a => Safe S (f a) Q s'
      | .error e => Safe S (.ret (.error e)) Q s') s) : Safe S (x.bind f) Q s := by
  apply bind
  apply mono _ h
  intro r s' hr
  cases r with
  | ok a => exact hr
  | error e => exact hr

theorem lift {p : Prog Call α} {Q : Except ε α → σ → Prop}
    (h : Safe S p (fun a s' => Safe S (.ret (.ok a)) Q s') s) : Safe S (Action.lift p) Q s :=
  bind h

/-- The rule for a step whose outcome, error or not, is handed on. -/
theorem bindAttempt {x : Action ε Call α} {f : Except ε α → Action ε Call β}
    {Q : Except ε β → σ → Prop} (h : Safe S x (fun r s' => Safe S (f r) Q s') s) :
    Safe S ((Action.attempt x).bind f) Q s := by
  apply bindAction
  apply bind
  apply mono _ h
  intro r s' hr s'' hrely _
  exact hr.stable hrely

/-- The rule for a step that cannot fail. -/
theorem bindLift {f : α → Action ε Call β} {Q : Except ε β → σ → Prop}
    (h : Safe S p (fun a s' => Safe S (f a) Q s') s) : Safe S ((Action.lift p).bind f) Q s := by
  apply bindAction
  apply bind
  apply mono _ h
  intro a s' ha s'' hrely _
  exact ha.stable hrely

/-- The rule for a loop: `L` holds of the elements still to come. -/
theorem forEach {f : β → Action ε Call Unit} {Q : Except ε Unit → σ → Prop}
    (L : List β → σ → Prop)
    (step : ∀ b rest s, L (b :: rest) s → Safe S (f b) (fun r s' => match r with
      | .ok _ => L rest s'
      | .error e => Safe S (.ret (.error e)) Q s') s)
    (done : ∀ s, L [] s → Safe S (.ret (.ok ())) Q s) {bs : List β} (h : L bs s) :
    Safe S (Action.forEach f bs) Q s := by
  induction bs generalizing s with
  | nil => exact done s h
  | cons b rest ih =>
    apply bindAction
    apply mono _ (step b rest s h)
    intro r s' hr
    cases r with
    | ok _ => exact ih hr
    | error e => exact hr

/-- From a state with a stronger invariant that others keep, it is enough to be
    safe under that invariant. -/
theorem narrow {I : σ → Prop} (himp : ∀ s, I s → S.inv s)
    (hrely : ∀ s s', S.rely s s' → I s → I s') (hi : I s)
    (h : Safe { S with inv := I } p Q s) : Safe S p Q s := by
  induction p generalizing s with
  | ret a =>
    intro s' hr _
    exact h s' hr (hrely s s' hr hi)
  | call c next ih =>
    intro s' hr _ r s'' ha
    obtain ⟨hi'', hg, hnext⟩ := h s' hr (hrely s s' hr hi) r s'' ha
    exact ⟨himp s'' hi'', hg, ih r hi'' hnext⟩

/-- A safe program keeps the invariant along every partial run among others
    that do no more than the rely allows. -/
theorem trace {env : σ → σ → Prop} (henv : ∀ s s', env s s' → S.rely s s')
    (hinv : ∀ s s', env s s' → S.inv s → S.inv s') {o : Option α}
    (run : Trace S.answer env p s o t) (hi : S.inv s) (h : Safe S p Q s) :
    S.inv t ∧ ∀ a, o = some a → Q a t := by
  induction run with
  | stop p s => exact ⟨hi, fun a ha => nomatch ha⟩
  | ret a s =>
    refine ⟨hi, fun b hb => ?_⟩
    obtain rfl := Option.some.inj hb
    exact h s (S.rely_refl s) hi
  | env hstep _ ih => exact ih (hinv _ _ hstep hi) (h.stable (henv _ _ hstep))
  | @call _ c next s s' t r o ha _ ih =>
    obtain ⟨hi', -, hnext⟩ := h s (S.rely_refl s) hi r s' ha
    exact ih hi' hnext

end Safe

end Program
