import Pgfy.Framework.Concurrent

/-! # Ownership

    Parts of a state that are changed by one thread at a time. A thread owns a
    part while it holds what keeps the others out of it; who owns a part may
    depend on the part itself. What a thread relies on is that the parts it owns
    stay as they are and its own, and what it guarantees is that it changes only
    parts it owns and takes none away. Between the parts there may be things
    anybody changes at any time, as long as the state only grows.
-/

universe u v

namespace Program

variable {σ : Type v} {Call : Type → Type u} {α ι : Type}

structure Ownership (σ : Type v) (ι : Type) where
  /-- what all states satisfy -/
  inv : σ → Prop
  /-- the thread owns the part -/
  owns : ℕ → ι → σ → Prop
  /-- the part is the same in both states -/
  same : ι → σ → σ → Prop
  /-- the second state may follow the first, whoever acts -/
  grows : σ → σ → Prop
  exclusive : ∀ {i j a s}, inv s → owns i a s → owns j a s → i = j
  same_refl : ∀ a s, same a s s
  same_trans : ∀ {a s t u}, same a s t → same a t u → same a s u
  grows_refl : ∀ s, grows s s
  grows_trans : ∀ {s t u}, grows s t → grows t u → grows s u

namespace Ownership

/-- What a thread relies on and guarantees. -/
def discipline (O : Ownership σ ι) : Discipline σ where
  inv := O.inv
  rely i s s' := O.grows s s' ∧ ∀ a, O.owns i a s → O.owns i a s' ∧ O.same a s s'
  guar i s s' := O.grows s s' ∧ (∀ a, O.same a s s' ∨ O.owns i a s) ∧
    ∀ j a, j ≠ i → O.owns j a s → O.owns j a s'
  rely_refl _ s := ⟨O.grows_refl s, fun a h => ⟨h, O.same_refl a s⟩⟩
  rely_trans h h' := ⟨O.grows_trans h.1 h'.1, fun a ha =>
    ⟨(h'.2 a (h.2 a ha).1).1, O.same_trans (h.2 a ha).2 (h'.2 a (h.2 a ha).1).2⟩⟩

/-- What one thread guarantees is what the others rely on. -/
theorem others (O : Ownership σ ι) {i j : ℕ} {s s' : σ} (hne : i ≠ j) (hi : O.inv s)
    (h : O.discipline.guar j s s') : O.discipline.rely i s s' := by
  obtain ⟨hgrows, hsame, howns⟩ := h
  refine ⟨hgrows, fun a ha => ⟨howns i a hne ha, ?_⟩⟩
  rcases hsame a with hs | hj
  · exact hs
  · exact absurd (O.exclusive hi ha hj) hne

/-- A change that no part shows and that takes nothing away. -/
structure Free (O : Ownership σ ι) (s s' : σ) : Prop where
  grows : O.grows s s'
  same : ∀ a, O.same a s s'
  owns : ∀ j a, O.owns j a s → O.owns j a s'

section
variable {O : Ownership σ ι} {i : ℕ} {s s' : σ}

theorem Free.guar (h : O.Free s s') : O.discipline.guar i s s' :=
  ⟨h.grows, fun a => Or.inl (h.same a), fun j a _ => h.owns j a⟩

/-- To its own thread too it looks like one of the others'. -/
theorem Free.rely (h : O.Free s s') : O.discipline.rely i s s' :=
  ⟨h.grows, fun a ha => ⟨h.owns i a ha, h.same a⟩⟩

end

/-- A property that no other thread takes away from thread `i`. -/
def Stable (O : Ownership σ ι) (i : ℕ) (P : σ → Prop) : Prop :=
  ∀ s s', O.discipline.rely i s s' → O.inv s' → P s → P s'

/-- A program that makes only free calls keeps what others leave alone. -/
theorem safe_free {O : Ownership σ ι} {M : System σ Call} {i : ℕ}
    {K : ∀ ⦃β : Type⦄, Call β → Prop}
    (hK : ∀ ⦃β : Type⦄ (c : Call β), K c → ∀ s r s', O.inv s → M.answer i s c r s' →
      O.inv s' ∧ O.Free s s') {P : σ → Prop} (stable : O.Stable i P) {p : Prog Call α}
    (hp : p.Calls K) {s : σ} (hs : P s) :
    Safe (O.discipline.setting M i) p (fun _ s' => P s') s := by
  induction p generalizing s with
  | ret a => exact fun s' hr hi => stable s s' hr hi hs
  | call c next ih =>
    intro s' hr hi r s'' ha
    obtain ⟨hi', hfree⟩ := hK c hp.1 s' r s'' hi ha
    exact ⟨hi', hfree.guar, ih r (hp.2 r) (stable s' s'' hfree.rely hi' (stable s s' hr hi hs))⟩

end Ownership

end Program
