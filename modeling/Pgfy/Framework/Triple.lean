import Pgfy.Framework.Concurrent

/-! # Pre- and postconditions

    Triples over the judgment `Safe`: from a state in which the precondition
    holds and keeps holding whatever others do, every run of the program is
    safe and ends with the postcondition. The rules follow the program's text;
    what others do only shows where a call is made.
-/

universe u v

namespace Program

variable {Call : Type → Type u} {σ : Type v} {α β ε δ : Type}

/-- `P` holds, whatever others do until the next call. -/
def Settled (S : Setting σ Call) (P : σ → Prop) (s : σ) : Prop :=
  ∀ s', S.rely s s' → S.inv s' → P s'

def Triple (S : Setting σ Call) (P : σ → Prop) (p : Prog Call α) (Q : α → σ → Prop) : Prop :=
  ∀ s, Settled S P s → Safe S p Q s

/-- A postcondition of a program that may fail. -/
def Ends (Q : α → σ → Prop) (E : ε → σ → Prop) : Except ε α → σ → Prop
  | .ok a => Q a
  | .error e => E e

/-- Others do not end `P`. -/
def Setting.Keeps (S : Setting σ Call) (P : σ → Prop) : Prop :=
  ∀ s s', S.rely s s' → P s → P s'

theorem Setting.Keeps.and {S : Setting σ Call} {P P' : σ → Prop} (h : S.Keeps P)
    (h' : S.Keeps P') : S.Keeps (fun s => P s ∧ P' s) :=
  fun s t hr hp => ⟨h s t hr hp.1, h' s t hr hp.2⟩

theorem Setting.Keeps.ends {S : Setting σ Call} {Q : α → σ → Prop} {E : ε → σ → Prop}
    (hQ : ∀ a, S.Keeps (Q a)) (hE : ∀ e, S.Keeps (E e)) (r : Except ε α) :
    S.Keeps (Ends Q E r) := by
  cases r with
  | ok a => exact hQ a
  | error e => exact hE e

namespace Triple

variable {S : Setting σ Call} {P P' : σ → Prop} {p : Prog Call α} {Q Q' : α → σ → Prop}
  {E E' : ε → σ → Prop}

theorem safe (h : Triple S P p Q) (hk : S.Keeps P) {s : σ} (hs : P s) : Safe S p Q s :=
  h s (fun s' hr _ => hk s s' hr hs)

theorem mono (h : Triple S P p Q) (hP : ∀ s, P' s → P s) (hQ : ∀ a s, Q a s → Q' a s) :
    Triple S P' p Q' :=
  fun s hs => (h s (fun s' hr hi => hP s' (hs s' hr hi))).mono hQ

theorem pre (h : Triple S P p Q) (hP : ∀ s, P' s → P s) : Triple S P' p Q :=
  h.mono hP (fun _ _ hq => hq)

theorem post (h : Triple S P p Q) (hQ : ∀ a s, Q a s → Q' a s) : Triple S P p Q' :=
  h.mono (fun _ hp => hp) hQ

theorem errors {x : Action ε Call α} (h : Triple S P x (Ends Q E))
    (hE : ∀ e s, E e s → E' e s) : Triple S P x (Ends Q E') := by
  refine h.post (fun r s hr => ?_)
  cases r with
  | ok a => exact hr
  | error e => exact hE e s hr

/-- A program that ends alike whether or not it fails. -/
theorem ends {x : Action ε Call α} (h : Triple S P x (fun _ => P')) (hQ : ∀ a s, P' s → Q a s)
    (hE : ∀ e s, P' s → E e s) : Triple S P x (Ends Q E) := by
  refine h.post (fun r s hr => ?_)
  cases r with
  | ok a => exact hQ a s hr
  | error e => exact hE e s hr

/-- A part of the precondition that is not about the state. -/
theorem given {φ : Prop} (h : φ → Triple S P p Q) : Triple S (fun s => P s ∧ φ) p Q := by
  intro s hs
  refine Safe.of_later (fun s' hr hi => ?_)
  exact h (hs s' hr hi).2 s' (fun t ht hti => (hs t (S.rely_trans hr ht) hti).1)

/-- Nothing is said where the precondition cannot hold. -/
theorem vacuous (h : ∀ s, ¬ P s) : Triple S P p Q :=
  fun _ hs => Safe.of_later (fun s' hr hi => absurd (hs s' hr hi) (h s'))

theorem or (hk : S.Keeps P) (hk' : S.Keeps P') (h : Triple S P p Q) (h' : Triple S P' p Q) :
    Triple S (fun s => P s ∨ P' s) p Q := by
  intro s hs
  refine Safe.of_later (fun s' hr hi => ?_)
  rcases hs s' hr hi with hp | hp
  · exact h.safe hk hp
  · exact h'.safe hk' hp

theorem exist {ι : Sort*} {P : ι → σ → Prop} (hk : ∀ i, S.Keeps (P i))
    (h : ∀ i, Triple S (P i) p Q) : Triple S (fun s => ∃ i, P i s) p Q := by
  intro s hs
  refine Safe.of_later (fun s' hr hi => ?_)
  obtain ⟨i, hp⟩ := hs s' hr hi
  exact (h i).safe (hk i) hp

theorem ret {a : α} (h : ∀ s, P s → Q a s) : Triple S P (.ret a) Q :=
  fun _ hs s' hr hi => h s' (hs s' hr hi)

/-- The rule for a call: what it leaves is kept by others. -/
theorem ask {c : Call α} (hQ : ∀ r, S.Keeps (Q r))
    (h : ∀ s r s', S.inv s → P s → S.answer s c r s' → S.inv s' ∧ S.guar s s' ∧ Q r s') :
    Triple S P (Prog.ask c) Q := by
  intro s hs s' hr hi r s'' ha
  obtain ⟨hi', hg, hq⟩ := h s' r s'' hi (hs s' hr hi) ha
  exact ⟨hi', hg, fun t ht _ => hQ r s'' t ht hq⟩

theorem bind {f : α → Prog Call β} {Q' : β → σ → Prop} (hp : Triple S P p Q)
    (hf : ∀ a, Triple S (Q a) (f a) Q') : Triple S P (p.bind f) Q' :=
  fun s hs => Safe.bind ((hp s hs).settled.mono (fun a s' ha => hf a s' ha))

/-- The rule for a sequence whose steps fail alike. -/
theorem seq {x : Action ε Call α} {f : α → Action ε Call β} {Q : α → σ → Prop}
    {Q' : β → σ → Prop} (hx : Triple S P x (Ends Q E))
    (hf : ∀ a, Triple S (Q a) (f a) (Ends Q' E)) : Triple S P (x.bind f) (Ends Q' E) := by
  refine bind hx (fun r => ?_)
  cases r with
  | ok a => exact hf a
  | error e => exact ret (fun s hs => hs)

theorem fail {e : ε} {Q : α → σ → Prop} (h : ∀ s, P s → E e s) :
    Triple S P (Action.fail e) (Ends Q E) :=
  ret h

theorem done {a : α} {Q : α → σ → Prop} (h : ∀ s, P s → Q a s) :
    Triple S P (pure a : Action ε Call α) (Ends Q E) :=
  ret h

/-- The rule for a step whose outcome is handed on. -/
theorem lift {f : α → Action ε Call β} {Q' : Except ε β → σ → Prop} (hp : Triple S P p Q)
    (hf : ∀ a, Triple S (Q a) (f a) Q') : Triple S P ((Action.lift p).bind f) Q' :=
  fun s hs => Safe.bindLift ((hp s hs).settled.mono (fun a s' ha => hf a s' ha))

/-- The rule for a loop: `L` holds of the elements still to come. -/
theorem forEach {f : β → Action ε Call Unit} {L : List β → σ → Prop}
    (step : ∀ b rest, Triple S (L (b :: rest)) (f b) (Ends (fun _ => L rest) E)) (bs : List β) :
    Triple S (L bs) (Action.forEach f bs) (Ends (fun _ => L []) E) := by
  induction bs with
  | nil => exact done (fun _ hs => hs)
  | cons b rest ih => exact seq (step b rest) (fun _ => ih)

/-- What every call of a program keeps holds at the end. -/
theorem of_calls {K : ∀ ⦃β : Type⦄, Call β → Prop} (hP : S.Keeps P)
    (h : ∀ ⦃β : Type⦄ (c : Call β), K c → ∀ s r s', S.inv s → P s → S.answer s c r s' →
      S.inv s' ∧ S.guar s s' ∧ P s') (hp : p.Calls K) : Triple S P p (fun _ => P) := by
  induction p with
  | ret a => exact ret (fun _ hs => hs)
  | call c next ih =>
    intro s hs s' hr hi r s'' ha
    obtain ⟨hi', hg, hq⟩ := h c hp.1 s' r s'' hi (hs s' hr hi) ha
    exact ⟨hi', hg, ih r (hp.2 r) s'' (fun t ht _ => hP s'' t ht hq)⟩

/-- The frame rule: what every call of a program keeps holds beside what the
    program is about. -/
theorem frame {K : ∀ ⦃β : Type⦄, Call β → Prop} {X : σ → Prop} (hX : S.Keeps X)
    (hK : ∀ ⦃β : Type⦄ (c : Call β), K c → ∀ s r s', S.inv s → X s → S.answer s c r s' → X s')
    (hp : p.Calls K) (h : Triple S P p Q) :
    Triple S (fun s => P s ∧ X s) p (fun a s => Q a s ∧ X s) := by
  intro s hs
  have hsafe : Safe S p Q s := h s (fun s' hr hi => (hs s' hr hi).1)
  have hxs : Settled S X s := fun s' hr hi => (hs s' hr hi).2
  clear hs h
  induction p generalizing s with
  | ret a => exact fun s' hr hi => ⟨hsafe s' hr hi, hxs s' hr hi⟩
  | call c next ih =>
    intro s' hr hi r s'' ha
    obtain ⟨hi', hg, hnext⟩ := hsafe s' hr hi r s'' ha
    have hx := hK c hp.1 s' r s'' hi (hxs s' hr hi) ha
    exact ⟨hi', hg, ih r (hp.2 r) s'' hnext (fun t ht _ => hX s'' t ht hx)⟩

theorem frameAction {K : ∀ ⦃β : Type⦄, Call β → Prop} {X : σ → Prop} {x : Action ε Call α}
    (hX : S.Keeps X)
    (hK : ∀ ⦃β : Type⦄ (c : Call β), K c → ∀ s r s', S.inv s → X s → S.answer s c r s' → X s')
    (hx : Prog.Calls K x) (h : Triple S P x (Ends Q E)) :
    Triple S (fun s => P s ∧ X s) x (Ends (fun a s => Q a s ∧ X s) E) := by
  refine (h.frame hX hK hx).post (fun r s hr => ?_)
  cases r with
  | ok a => exact hr
  | error e => exact hr.1

end Triple

end Program
