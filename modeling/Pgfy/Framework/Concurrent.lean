import Pgfy.Framework.Program

/-! # Threads

    Several programs that run at once over one state. A pool is the state with
    the threads started so far; a step is one call of one thread, the start of
    a new thread, something that happens outside the threads, or the death of
    the process with all its threads and the start of a new one.

    The rule for pools is rely and guarantee: if every program that may start
    is safe in its own setting, and what one thread guarantees is what the
    others rely on, then the invariant holds in every pool that is reached.
-/

universe u v w

namespace Program

/-! ### Pools -/

/-- The state and the threads, by number. A thread that has ended keeps its number. -/
structure Pool (σ : Type v) (Call : Type → Type u) where
  state : σ
  threads : List (Prog Call Unit)

/-- What the threads of a process run against. -/
structure System (σ : Type v) (Call : Type → Type u) where
  /-- how a thread's call is answered -/
  answer : ℕ → Answers σ Call
  /-- the programs that may be started -/
  starts : σ → Prog Call Unit → Prop
  /-- what may happen outside the threads -/
  outside : σ → σ → Prop
  /-- what a new process finds and starts with; its first thread has the given number -/
  restarts : ℕ → σ → σ → List (Prog Call Unit) → Prop

variable {σ : Type v} {Call : Type → Type u}

/-- Every thread has ended. -/
def ended (threads : List (Prog Call Unit)) : List (Prog Call Unit) :=
  threads.map (fun _ => .ret ())

inductive Step (M : System σ Call) : Pool σ Call → Pool σ Call → Prop
  | start {s : σ} {ts : List (Prog Call Unit)} {p : Prog Call Unit} (h : M.starts s p) :
      Step M ⟨s, ts⟩ ⟨s, ts ++ [p]⟩
  | call {s s' : σ} {ts : List (Prog Call Unit)} {i : ℕ} {β : Type} {c : Call β}
      {next : β → Prog Call Unit} {r : β} (hi : ts[i]? = some (.call c next))
      (h : M.answer i s c r s') : Step M ⟨s, ts⟩ ⟨s', ts.set i (next r)⟩
  | outside {s s' : σ} {ts : List (Prog Call Unit)} (h : M.outside s s') :
      Step M ⟨s, ts⟩ ⟨s', ts⟩
  | restart {s s' : σ} {ts new : List (Prog Call Unit)} (h : M.restarts ts.length s s' new) :
      Step M ⟨s, ts⟩ ⟨s', ended ts ++ new⟩

/-- Any number of steps. -/
def Reaches (M : System σ Call) : Pool σ Call → Pool σ Call → Prop :=
  Relation.ReflTransGen (Step M)

/-- What is reached in a larger state is reached in the part of it that the
    calls and their surroundings are about. -/
theorem Reaches.map {τ : Type w} {M : System σ Call} {N : System τ Call} (f : τ → σ)
    (answer : ∀ {i β t t'} {c : Call β} {r : β}, N.answer i t c r t' →
      M.answer i (f t) c r (f t'))
    (starts : ∀ {t p}, N.starts t p → M.starts (f t) p)
    (outside : ∀ {t t'}, N.outside t t' → M.outside (f t) (f t'))
    (restarts : ∀ {n t t' new}, N.restarts n t t' new → M.restarts n (f t) (f t') new)
    {c c' : Pool τ Call} (h : Reaches N c c') :
    Reaches M ⟨f c.state, c.threads⟩ ⟨f c'.state, c'.threads⟩ := by
  induction h with
  | refl => exact .refl
  | tail _ hstep ih =>
    refine ih.tail ?_
    cases hstep with
    | start hp => exact .start (starts hp)
    | call hi ha => exact .call hi (answer ha)
    | outside ho => exact .outside (outside ho)
    | restart hr => exact .restart (restarts hr)

/-! ### Rely and guarantee -/

/-- What all states satisfy, what a thread relies on between its calls, and
    what it guarantees of each of them. -/
structure Discipline (σ : Type v) where
  inv : σ → Prop
  rely : ℕ → σ → σ → Prop
  guar : ℕ → σ → σ → Prop
  rely_refl : ∀ i s, rely i s s
  rely_trans : ∀ {i s t u}, rely i s t → rely i t u → rely i s u

/-- The setting of one thread. -/
def Discipline.setting (D : Discipline σ) (M : System σ Call) (i : ℕ) : Setting σ Call where
  answer := M.answer i
  inv := D.inv
  rely := D.rely i
  guar := D.guar i
  rely_refl := D.rely_refl i
  rely_trans := D.rely_trans

/-- A thread's program is safe, whatever it returns. -/
def Discipline.Sound (D : Discipline σ) (M : System σ Call) (i : ℕ) (p : Prog Call Unit)
    (s : σ) : Prop :=
  Safe (D.setting M i) p (fun _ _ => True) s

/-- The system keeps to the discipline. -/
structure Discipline.Kept (D : Discipline σ) (M : System σ Call) : Prop where
  others : ∀ {i j s s'}, i ≠ j → D.inv s → D.guar j s s' → D.rely i s s'
  outside : ∀ {s s'}, D.inv s → M.outside s s' → D.inv s' ∧ ∀ i, D.rely i s s'
  starts : ∀ {s p} i, D.inv s → M.starts s p → D.Sound M i p s
  restarts : ∀ {n s s' new}, D.inv s → M.restarts n s s' new →
    D.inv s' ∧ ∀ k p, new[k]? = some p → D.Sound M (n + k) p s'

/-- The invariant holds and every thread is safe in its setting. -/
structure Discipline.Covers (D : Discipline σ) (M : System σ Call) (c : Pool σ Call) : Prop where
  inv : D.inv c.state
  sound : ∀ i p, c.threads[i]? = some p → D.Sound M i p c.state

/-- What one step of a pool did to the state. -/
inductive Discipline.Change (D : Discipline σ) (M : System σ Call) (s s' : σ) : Prop
  | none (h : s' = s)
  | thread (i : ℕ) (h : D.guar i s s')
  | outside (h : M.outside s s')
  | restart (n : ℕ) (new : List (Prog Call Unit)) (h : M.restarts n s s' new)

section
variable {D : Discipline σ} {M : System σ Call} {c c' : Pool σ Call}

theorem Discipline.Covers.step (h : D.Kept M) (hc : D.Covers M c) (hstep : Step M c c') :
    D.Covers M c' ∧ D.Change M c.state c'.state := by
  cases hstep with
  | @start s ts p hp =>
    refine ⟨⟨hc.inv, ?_⟩, .none rfl⟩
    intro i q hq
    -- an old thread, or the new one
    rw [List.getElem?_append] at hq
    split at hq
    · exact hc.sound i q hq
    · rw [List.getElem?_singleton] at hq
      split at hq
      · cases hq
        exact h.starts i hc.inv hp
      · cases hq
  | @call s s' ts i β k next r hi ha =>
    obtain ⟨hinv, hguar, hnext⟩ :=
      hc.sound i _ hi s (D.rely_refl i s) hc.inv r s' ha
    refine ⟨⟨hinv, ?_⟩, .thread i hguar⟩
    intro j q hq
    by_cases hji : i = j
    · subst hji
      have hlt : i < ts.length := (List.getElem?_eq_some_iff.mp hi).1
      rw [show (Pool.mk s' (ts.set i (next r))).threads = ts.set i (next r) from rfl,
        List.getElem?_set_self hlt] at hq
      cases hq
      exact hnext
    · rw [show (Pool.mk s' (ts.set i (next r))).threads = ts.set i (next r) from rfl,
        List.getElem?_set_ne hji] at hq
      exact Safe.stable (hc.sound j q hq) (h.others (Ne.symm hji) hc.inv hguar)
  | @outside s s' ts ho =>
    obtain ⟨hinv, hrely⟩ := h.outside hc.inv ho
    exact ⟨⟨hinv, fun i p hp => Safe.stable (hc.sound i p hp) (hrely i)⟩, .outside ho⟩
  | @restart s s' ts new hr =>
    obtain ⟨hinv, hnew⟩ := h.restarts hc.inv hr
    refine ⟨⟨hinv, ?_⟩, .restart _ _ hr⟩
    intro i q hq
    rw [show (Pool.mk s' (ended ts ++ new)).threads = ended ts ++ new from rfl,
      List.getElem?_append] at hq
    split at hq
    · -- the threads of the old process have ended
      rw [ended, List.getElem?_map] at hq
      obtain ⟨_, -, rfl⟩ := Option.map_eq_some_iff.mp hq
      exact fun _ _ _ => trivial
    · next hlen =>
      rw [ended, List.length_map] at hlen hq
      have hsum : ts.length + (i - ts.length) = i := by omega
      have := hnew (i - ts.length) q hq
      rwa [hsum] at this

theorem Discipline.Covers.reaches (h : D.Kept M) (hc : D.Covers M c) (hr : Reaches M c c') :
    D.Covers M c' := by
  induction hr with
  | refl => exact hc
  | tail _ hstep ih => exact (ih.step h hstep).1

/-- With no thread running yet, the invariant is all there is to show. -/
theorem Discipline.covers_empty {s : σ} (h : D.inv s) : D.Covers M ⟨s, []⟩ :=
  ⟨h, fun _ _ hp => by simp at hp⟩

end

/-! ### The calls of a program -/

/-- Every call the program may come to make is one of `K`. -/
def Prog.Calls {α : Type} (K : ∀ ⦃β : Type⦄, Call β → Prop) : Prog Call α → Prop
  | .ret _ => True
  | .call c next => K c ∧ ∀ r, (next r).Calls K

namespace Prog.Calls

variable {α β ε : Type} {K K' : ∀ ⦃β : Type⦄, Call β → Prop} {p : Prog Call α}

theorem mono (h : ∀ ⦃β : Type⦄ (c : Call β), K c → K' c) (hp : p.Calls K) : p.Calls K' := by
  induction p with
  | ret a => trivial
  | call c next ih => exact ⟨h c hp.1, fun r => ih r (hp.2 r)⟩

theorem any (h : ∀ ⦃β : Type⦄ (c : Call β), K c) : p.Calls K := by
  induction p with
  | ret a => trivial
  | call c next ih => exact ⟨h c, ih⟩

theorem bind {f : α → Prog Call β} (hp : p.Calls K) (hf : ∀ a, (f a).Calls K) :
    (p.bind f).Calls K := by
  induction p with
  | ret a => exact hf a
  | call c next ih => exact ⟨hp.1, fun r => ih r (hp.2 r)⟩

theorem ask {c : Call α} (h : K c) : (Prog.ask c).Calls K := ⟨h, fun _ => trivial⟩

theorem bindAction {x : Action ε Call α} {f : α → Action ε Call β} (hx : Prog.Calls K x)
    (hf : ∀ a, Prog.Calls K (f a)) : Prog.Calls K (x.bind f) := by
  apply bind hx
  intro r
  cases r with
  | ok a => exact hf a
  | error e => trivial

theorem lift (hp : p.Calls K) : Prog.Calls K (Action.lift p : Action ε Call α) :=
  bind hp (fun _ => trivial)

theorem forEach {f : β → Action ε Call Unit} {bs : List β} (hf : ∀ b, Prog.Calls K (f b)) :
    Prog.Calls K (Action.forEach f bs) := by
  induction bs with
  | nil => trivial
  | cons b rest ih => exact bindAction (hf b) (fun _ => ih)

end Prog.Calls

/-- A program is safe if each of its calls, on its own, keeps the invariant and
    the guarantee. -/
theorem Safe.of_calls {α : Type} {S : Setting σ Call} {K : ∀ ⦃β : Type⦄, Call β → Prop}
    (h : ∀ ⦃β : Type⦄ (c : Call β), K c → ∀ s r s', S.inv s → S.answer s c r s' →
      S.inv s' ∧ S.guar s s') {p : Prog Call α} (hp : p.Calls K) (s : σ) :
    Safe S p (fun _ _ => True) s := by
  induction p generalizing s with
  | ret a => exact fun _ _ _ => trivial
  | call c next ih =>
    intro s' _ hi r s'' ha
    obtain ⟨hi', hg⟩ := h c hp.1 s' r s'' hi ha
    exact ⟨hi', hg, ih r (hp.2 r) s''⟩

/-- What the threads' calls do to the state, whatever they are: if a call of a
    kind that is right for the state changes it by `R` and leaves the same calls
    right, every pool that is reached is reached by `R`. -/
theorem Reaches.by_calls {M : System σ Call} {K : σ → ∀ ⦃β : Type⦄, Call β → Prop}
    {R : σ → σ → Prop} (starts : ∀ {s p}, M.starts s p → p.Calls (K s))
    (call : ∀ {i β s s'} {c : Call β} {r : β}, K s c → M.answer i s c r s' →
      R s s' ∧ ∀ ⦃β : Type⦄ (c : Call β), K s c → K s' c)
    (outside : ∀ {s s'}, M.outside s s' → R s s' ∧ ∀ ⦃β : Type⦄ (c : Call β), K s c → K s' c)
    (restarts : ∀ {n s s' new}, M.restarts n s s' new →
      R s s' ∧ ∀ p ∈ new, Prog.Calls (K s') p) {c c' : Pool σ Call}
    (hc : ∀ p ∈ c.threads, Prog.Calls (K c.state) p) (h : Reaches M c c') :
    Relation.ReflTransGen R c.state c'.state ∧ ∀ p ∈ c'.threads, Prog.Calls (K c'.state) p := by
  induction h with
  | refl => exact ⟨.refl, hc⟩
  | tail _ hstep ih =>
    obtain ⟨hrun, hcalls⟩ := ih
    cases hstep with
    | @start s ts p hp =>
      refine ⟨hrun, fun q hq => ?_⟩
      rcases List.mem_append.mp hq with hq | hq
      · exact hcalls q hq
      · obtain rfl := List.mem_singleton.mp hq
        exact starts hp
    | @call s s' ts i β c next r hi ha =>
      have hthread := hcalls _ (List.mem_of_getElem? hi)
      obtain ⟨hR, hkeep⟩ := call hthread.1 ha
      refine ⟨hrun.tail hR, fun q hq => ?_⟩
      rcases List.mem_or_eq_of_mem_set hq with hq | rfl
      · exact (hcalls q hq).mono hkeep
      · exact (hthread.2 r).mono hkeep
    | @outside s s' ts ho =>
      obtain ⟨hR, hkeep⟩ := outside ho
      exact ⟨hrun.tail hR, fun q hq => (hcalls q hq).mono hkeep⟩
    | @restart s s' ts new hr =>
      obtain ⟨hR, hnew⟩ := restarts hr
      refine ⟨hrun.tail hR, fun q hq => ?_⟩
      rcases List.mem_append.mp hq with hq | hq
      · obtain ⟨_, -, rfl⟩ := List.mem_map.mp hq
        trivial
      · exact hnew q hq

/-! ### What a thread has seen -/

/-- A call and the answer to it. -/
structure Exchange (Call : Type → Type u) where
  {β : Type}
  call : Call β
  answer : β

/-- A thread on its own, with nothing known about the answers it gets: the state
    is what it has asked and been told, newest first. -/
def journal (I : List (Exchange Call) → Prop) : Setting (List (Exchange Call)) Call where
  answer := fun _ seen c r seen' => seen' = ⟨c, r⟩ :: seen
  inv := I
  rely := Eq
  guar := fun _ _ => True
  rely_refl _ := rfl
  rely_trans := Eq.trans

/-- The program keeps its journal in `I`, whatever it is told. -/
def Keeps {α : Type} (I : List (Exchange Call) → Prop) (p : Prog Call α)
    (Q : α → List (Exchange Call) → Prop) (seen : List (Exchange Call)) : Prop :=
  Safe (journal I) p Q seen

namespace Keeps

variable {α β : Type} {I : List (Exchange Call) → Prop} {seen : List (Exchange Call)}

theorem ret {a : α} {Q : α → List (Exchange Call) → Prop} (h : I seen → Q a seen) :
    Keeps I (.ret a) Q seen := by
  rintro _ rfl hi
  exact h hi

theorem ask {c : Call β} {f : β → Prog Call α} {Q : α → List (Exchange Call) → Prop}
    (h : I seen → ∀ r, I (⟨c, r⟩ :: seen) ∧ Keeps I (f r) Q (⟨c, r⟩ :: seen)) :
    Keeps I (Prog.bind (Prog.ask c) f) Q seen := by
  rintro _ rfl hi r _ rfl
  exact ⟨(h hi r).1, trivial, (h hi r).2⟩

/-- A journal that is kept in less is kept in more. -/
theorem widen {J : List (Exchange Call) → Prop} {p : Prog Call α}
    {Q : α → List (Exchange Call) → Prop} (himp : ∀ seen, J seen → I seen) (hj : J seen)
    (h : Keeps J p Q seen) : Keeps I p Q seen := by
  refine Safe.narrow (S := journal I) himp ?_ hj h
  rintro s _ rfl hs
  exact hs

/-- Calls that do not matter to a journal in which something has been seen. -/
theorem of_calls_after {K : ∀ ⦃β : Type⦄, Call β → Prop} {W : List (Exchange Call) → Prop}
    {p : Prog Call α} (hW : ∀ e seen, W seen → W (e :: seen))
    (h : ∀ ⦃β : Type⦄ (c : Call β), K c → ∀ seen r, W seen → I seen → I (⟨c, r⟩ :: seen))
    (hp : p.Calls K) (hseen : W seen) : Keeps I p (fun _ seen' => W seen') seen := by
  induction p generalizing seen with
  | ret a => exact Keeps.ret (fun _ => hseen)
  | call c next ih =>
    rintro _ rfl hi r _ rfl
    exact ⟨h c hp.1 seen r hseen hi, trivial, ih r (hp.2 r) (hW _ _ hseen)⟩

/-- Calls that do not matter to the journal. -/
theorem of_calls {K : ∀ ⦃β : Type⦄, Call β → Prop} {p : Prog Call α}
    (h : ∀ ⦃β : Type⦄ (c : Call β), K c → ∀ seen r, I seen → I (⟨c, r⟩ :: seen))
    (hp : p.Calls K) : Keeps I p (fun _ _ => True) seen := by
  refine Safe.of_calls (fun β c hc seen r _ hi hr => ?_) hp seen
  subst hr
  exact ⟨h c hc seen r hi, trivial⟩

end Keeps

/-- If every program that is started keeps its journal in `I`, so do the threads
    of every pool that is reached. `own` reads a thread's journal off the state. -/
theorem Reaches.journals {M : System σ Call} {I : List (Exchange Call) → Prop}
    (own : ℕ → σ → List (Exchange Call)) (hI : I [])
    (starts : ∀ {s p}, M.starts s p → Keeps I p (fun _ _ => True) [])
    (answer : ∀ {i β s s'} {c : Call β} {r : β}, M.answer i s c r s' →
      own i s' = ⟨c, r⟩ :: own i s ∧ ∀ j, j ≠ i → own j s' = own j s)
    (outside : ∀ {s s'}, M.outside s s' → ∀ i, own i s' = own i s)
    (restarts : ∀ {n s s' new}, M.restarts n s s' new →
      (∀ i, own i s' = own i s) ∧ ∀ p ∈ new, Keeps I p (fun _ _ => True) [])
    {s : σ} (hs : ∀ i, own i s = []) {c : Pool σ Call} (h : Reaches M ⟨s, []⟩ c) (i : ℕ) :
    I (own i c.state) := by
  suffices hall : (∀ i, I (own i c.state)) ∧ (∀ i p, c.threads[i]? = some p →
      Keeps I p (fun _ _ => True) (own i c.state)) ∧
      ∀ i, c.threads.length ≤ i → own i c.state = [] from hall.1 i
  induction h with
  | refl => exact ⟨fun i => hs i ▸ hI, fun i p hp => by simp at hp, fun i _ => hs i⟩
  | tail _ hstep ih =>
    obtain ⟨hinv, hkeeps, hfresh⟩ := ih
    cases hstep with
    | @start s ts p hp =>
      refine ⟨hinv, fun i q hq => ?_, fun i hi => hfresh i ?_⟩
      · rw [List.getElem?_append] at hq
        split at hq
        · exact hkeeps i q hq
        · next hlen =>
          rw [List.getElem?_singleton] at hq
          split at hq
          · cases hq
            rw [hfresh i (Nat.not_lt.mp hlen)]
            exact starts hp
          · cases hq
      · rw [List.length_append] at hi
        exact Nat.le_trans (Nat.le_add_right _ _) hi
    | @call s s' ts i β k next r hi ha =>
      obtain ⟨hown, hothers⟩ := answer ha
      obtain ⟨hnew, -, hnext⟩ := hkeeps i _ hi _ rfl (hinv i) r _ rfl
      have hlt : i < ts.length := (List.getElem?_eq_some_iff.mp hi).1
      refine ⟨fun j => ?_, fun j q hq => ?_, fun j hj => ?_⟩
      · by_cases hji : j = i
        · subst hji
          exact hown ▸ hnew
        · exact hothers j hji ▸ hinv j
      · by_cases hji : j = i
        · subst hji
          rw [List.getElem?_set_self hlt] at hq
          cases hq
          rw [hown]
          exact hnext
        · rw [List.getElem?_set_ne (Ne.symm hji)] at hq
          rw [hothers j hji]
          exact hkeeps j q hq
      · rw [List.length_set] at hj
        rw [hothers j (by omega)]
        exact hfresh j hj
    | @outside s s' ts ho =>
      have hsame := outside ho
      refine ⟨fun i => hsame i ▸ hinv i, fun i p hp => ?_, fun i hi => ?_⟩
      · rw [hsame i]
        exact hkeeps i p hp
      · rw [hsame i]
        exact hfresh i hi
    | @restart s s' ts new hr =>
      obtain ⟨hsame, hnew⟩ := restarts hr
      refine ⟨fun i => hsame i ▸ hinv i, fun i q hq => ?_, fun i hi => ?_⟩
      · rw [List.getElem?_append] at hq
        split at hq
        · rw [ended, List.getElem?_map] at hq
          obtain ⟨_, -, rfl⟩ := Option.map_eq_some_iff.mp hq
          exact Keeps.ret (fun _ => trivial)
        · next hlen =>
          rw [ended, List.length_map, Nat.not_lt] at hlen
          rw [hsame i, hfresh i hlen]
          exact hnew q (List.mem_of_getElem? hq)
      · rw [List.length_append, ended, List.length_map] at hi
        rw [hsame i]
        exact hfresh i (Nat.le_trans (Nat.le_add_right _ _) hi)

/-! ### Playing a schedule -/

/-- One step of a schedule; `κ` says how a call is answered. -/
inductive Move (σ : Type v) (Call : Type → Type u) (κ : Type) where
  | start (p : σ → Prog Call Unit)
  | call (i : ℕ) (k : κ)
  | outside (f : σ → σ)
  | restart (f : ℕ → σ → σ × List (Prog Call Unit))

section
variable {κ : Type} (exec : ∀ ⦃β : Type⦄, κ → ℕ → σ → Call β → Option (β × σ))

/-- The pool after one step, if it can be made. -/
def Move.play : Move σ Call κ → Pool σ Call → Option (Pool σ Call)
  | start p, c => some ⟨c.state, c.threads ++ [p c.state]⟩
  | call i k, c =>
    match c.threads[i]? with
    | some (.call a next) =>
      match exec k i c.state a with
      | some (r, s) => some ⟨s, c.threads.set i (next r)⟩
      | none => none
    | _ => none
  | outside f, c => some ⟨f c.state, c.threads⟩
  | restart f, c =>
    some ⟨(f c.threads.length c.state).1, ended c.threads ++ (f c.threads.length c.state).2⟩

/-- The pool after a whole schedule. -/
def play (moves : List (Move σ Call κ)) (c : Pool σ Call) : Option (Pool σ Call) :=
  moves.foldlM (fun c m => m.play exec c) c

/-- The step is one of the system, in any state. -/
def Move.Of (M : System σ Call) : Move σ Call κ → Prop
  | start p => ∀ s, M.starts s (p s)
  | call _ _ => True
  | outside f => ∀ s, M.outside s (f s)
  | restart f => ∀ n s, M.restarts n s (f n s).1 (f n s).2

variable {exec} {M : System σ Call}

theorem Move.play_step
    (hexec : ∀ ⦃β : Type⦄ {k i s r s'} {a : Call β}, exec k i s a = some (r, s') →
      M.answer i s a r s') {m : Move σ Call κ} (hm : m.Of M) {c c' : Pool σ Call}
    (h : m.play exec c = some c') : Step M c c' := by
  cases m with
  | start p =>
    cases h
    exact .start (hm c.state)
  | call i k =>
    simp only [play] at h
    split at h
    · next a next hi =>
      split at h
      · next r s hr =>
        cases h
        exact .call hi (hexec hr)
      · cases h
    · cases h
  | outside f =>
    cases h
    exact .outside (hm c.state)
  | restart f =>
    cases h
    exact .restart (hm c.threads.length c.state)

/-- What a schedule leads to is reached. -/
theorem play_reaches
    (hexec : ∀ ⦃β : Type⦄ {k i s r s'} {a : Call β}, exec k i s a = some (r, s') →
      M.answer i s a r s') {moves : List (Move σ Call κ)} (hm : ∀ m ∈ moves, m.Of M)
    {c c' : Pool σ Call} (h : play exec moves c = some c') : Reaches M c c' := by
  induction moves generalizing c with
  | nil =>
    cases h
    exact .refl
  | cons m rest ih =>
    rw [play, List.foldlM_cons] at h
    cases hplay : m.play exec c with
    | none =>
      rw [hplay] at h
      cases h
    | some c₁ =>
      rw [hplay] at h
      have hfirst := Move.play_step hexec (hm m List.mem_cons_self) hplay
      exact .head hfirst (ih (fun m' hm' => hm m' (List.mem_cons_of_mem _ hm')) h)

end

end Program
