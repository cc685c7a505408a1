import Pgfy.Framework.Concurrent
import Pgfy.Site.State

/-! # Runs of the application

    The threads of the application over one site, with commands run on the host,
    a clock, and restarts, after which the process may serve another access
    configuration. Every answered call leaves a note, so that what a run did can
    be read off its log.
-/

namespace Pgfy

open Calendar Program

/-- One answered call, with the state around it. -/
structure Note where
  /-- who made it; none for a command on the host -/
  thread : Option ℕ
  {β : Type}
  call : Call β
  answer : β
  before : Site
  after : Site

structure History where
  site : Site
  /-- newest first -/
  log : List Note := []

/-- The history after one more call. -/
def History.add (h : History) (thread : Option ℕ) {β : Type} (c : Call β) (r : β) (s : Site) :
    History :=
  ⟨s, ⟨thread, c, r, h.site, s⟩ :: h.log⟩

/-! ### Journals -/

def Note.exchange (n : Note) : Exchange Call := ⟨n.call, n.answer⟩

/-- What a thread has asked and been told, newest first. -/
def History.journal (h : History) (i : ℕ) : List (Exchange Call) :=
  (h.log.filter (·.thread = some i)).map Note.exchange

theorem journal_add (h : History) {β : Type} (thread : Option ℕ) (c : Call β) (r : β) (s : Site)
    (i : ℕ) : (h.add thread c r s).journal i =
      if thread = some i then ⟨c, r⟩ :: h.journal i else h.journal i := by
  unfold History.journal History.add
  by_cases hi : thread = some i
  · simp [hi, Note.exchange]
  · simp [hi]

/-- The system with its history: every answered call leaves a note. -/
def recorded (M : System Site Call) : System History Call where
  answer i := fun _ h c r h' => ∃ s, M.answer i h.site c r s ∧ h' = h.add (some i) c r s
  starts h p := M.starts h.site p
  outside h h' := M.outside h.site h'.site ∧ h'.log = h.log
  restarts n h h' new := M.restarts n h.site h'.site new ∧ h'.log = h.log

section
variable {M : System Site Call}

theorem recorded_reaches {c c' : Pool History Call} (h : Reaches (recorded M) c c') :
    Reaches M ⟨c.state.site, c.threads⟩ ⟨c'.state.site, c'.threads⟩ := by
  refine Reaches.map (M := M) History.site ?_ ?_ ?_ ?_ h
  · rintro i β h _ c r ⟨s, hs, rfl⟩
    exact hs
  · exact fun hp => hp
  · exact fun ho => ho.1
  · exact fun hr => hr.1

/-- What every program keeps its journal in, every thread of every run does. -/
theorem recorded_journals {I : List (Exchange Call) → Prop} (hI : I [])
    (starts : ∀ {s p}, M.starts s p → Keeps I p (fun _ _ => True) [])
    (restarts : ∀ {n s s' new}, M.restarts n s s' new →
      ∀ p ∈ new, Keeps I p (fun _ _ => True) [])
    {s : Site} {c : Pool History Call} (h : Reaches (recorded M) ⟨⟨s, []⟩, []⟩ c) (i : ℕ) :
    I (c.state.journal i) := by
  refine Reaches.journals (fun i h => History.journal h i) hI (fun hp => starts hp) ?_ ?_ ?_
    (fun _ => rfl) h i
  · rintro i β h _ c r ⟨s, -, rfl⟩
    refine ⟨by rw [journal_add, if_pos rfl], fun j hj => ?_⟩
    rw [journal_add, if_neg (fun heq => hj (Option.some.inj heq).symm)]
  · rintro h h' ⟨-, hlog⟩ j
    rw [History.journal, hlog, History.journal]
  · rintro n h h' new ⟨hr, hlog⟩
    exact ⟨fun j => by rw [History.journal, hlog, History.journal], restarts hr⟩

/-- What every call of the programs does, every note of every run shows. -/
theorem recorded_notes {K : ∀ ⦃β : Type⦄, Call β → Prop} {P : Note → Prop}
    (starts : ∀ {s p}, M.starts s p → p.Calls K)
    (restarts : ∀ {n s s' new}, M.restarts n s s' new → ∀ p ∈ new, Prog.Calls K p)
    (call : ∀ {i β s s'} {c : Call β} {r : β}, K c → M.answer i s c r s' →
      P ⟨some i, c, r, s, s'⟩)
    {s : Site} {c : Pool History Call} (h : Reaches (recorded M) ⟨⟨s, []⟩, []⟩ c) :
    ∀ n ∈ c.state.log, P n := by
  have hrun := (Reaches.by_calls (M := recorded M) (K := fun _ => K)
    (R := fun h h' => (∀ n ∈ h.log, P n) → ∀ n ∈ h'.log, P n) (fun hp => starts hp) ?_ ?_ ?_
    (by simp) h).1
  · generalize c.state = h' at hrun
    induction hrun with
    | refl => simp
    | tail _ hstep ih => exact hstep ih
  · rintro i β h _ c r hc ⟨s', ha, rfl⟩
    refine ⟨fun hlog n hn => ?_, fun _ _ hk => hk⟩
    rcases List.mem_cons.mp hn with rfl | hn
    · exact call hc ha
    · exact hlog n hn
  · rintro h h' ⟨-, hlog⟩
    exact ⟨fun hall => hlog ▸ hall, fun _ _ hk => hk⟩
  · rintro n h h' new ⟨hr, hlog⟩
    exact ⟨fun hall => hlog ▸ hall, restarts hr⟩

end

/-- What a run may contain. -/
structure Circumstances where
  fails : Faults
  /-- how the clock may be moved -/
  ticks : Instant → Instant → Prop
  /-- the calls that commands on the host make -/
  host : ∀ ⦃β : Type⦄, Call β → Prop
  /-- the programs a request or a timer may start -/
  starts : Site → Run Unit → Prop
  /-- the programs a new process starts with -/
  boots : Site → List (Run Unit) → Prop

namespace Circumstances

/-- What happens outside the process: the clock moves, PostgreSQL loads its
    configuration, a command is run. -/
inductive Outside (C : Circumstances) (h : History) : History → Prop
  | tick (t : Instant) (ht : C.ticks h.site.clock t) :
      C.Outside h { h with site := { h.site with clock := t } }
  | load (t : Instant) (ht : h.site.pg.loadTime < t) (hs : h.site.pg.signalled = true) :
      C.Outside h { h with site := { h.site with pg := { h.site.pg with
        loaded := h.site.rules, loadTime := t, signalled := false } } }
  | command {β : Type} (c : Call β) (hc : C.host c) (i : ℕ) (r : β) (s : Site)
      (hr : Site.Replies C.fails i c h.site r s) : C.Outside h (h.add none c r s)

/-- A new process, of the same access configuration or of one with a session
    scope that was not used before. -/
def Restarts (C : Circumstances) (h h' : History) (new : List (Run Unit)) : Prop :=
  ∃ config : Config, (config = h.site.config ∨ config.scope ∉ h.site.scopes) ∧
    h' = { h with site := h.site.restarted config } ∧ C.boots h'.site new

def system (C : Circumstances) : System History Call where
  answer i := fun _ h c r h' =>
    ∃ s, Site.Replies C.fails i c h.site r s ∧ h' = h.add (some i) c r s
  starts h p := C.starts h.site p
  outside := C.Outside
  restarts _ := C.Restarts

/-- The pools that can be reached from a fresh installation. -/
def Reachable (C : Circumstances) (config : Config) (c : Pool History Call) : Prop :=
  Reaches C.system ⟨⟨{ config := config }, []⟩, []⟩ c

/-- What a step of a run can do to its history. -/
inductive Moves (C : Circumstances) (h : History) : History → Prop
  | call (thread : Option ℕ) {β : Type} (c : Call β) (hhost : thread = none → C.host c) (i : ℕ)
      (r : β) (s : Site) (hr : Site.Replies C.fails i c h.site r s) :
      C.Moves h (h.add thread c r s)
  | tick (t : Instant) (ht : C.ticks h.site.clock t) :
      C.Moves h { h with site := { h.site with clock := t } }
  | load (t : Instant) :
      C.Moves h { h with site := { h.site with pg := { h.site.pg with
        loaded := h.site.rules, loadTime := t, signalled := false } } }
  | restart (config : Config) : C.Moves h { h with site := h.site.restarted config }

/-- What holds of a fresh installation and is kept by whatever can happen holds
    in every run. -/
theorem invariant {C : Circumstances} {config : Config} {P : History → Prop}
    (init : P ⟨{ config := config }, []⟩) (step : ∀ {h h'}, C.Moves h h' → P h → P h')
    {c : Pool History Call} (hreach : C.Reachable config c) : P c.state := by
  have hrun := (Reaches.by_calls (K := fun _ _ _ => True) (R := C.Moves) ?_ ?_ ?_ ?_ (by simp)
    hreach).1
  · generalize c.state = h at hrun
    induction hrun with
    | refl => exact init
    | tail _ hstep ih => exact step hstep ih
  · exact fun _ => .any (fun _ _ => trivial)
  · rintro i β s _ c r - ⟨s', hr, rfl⟩
    exact ⟨.call (some i) c (by simp) i r s' hr, fun _ _ h => h⟩
  · rintro s _ (⟨t, ht⟩ | ⟨t, ht, hs⟩ | ⟨c, hc, i, r, s', hr⟩)
    · exact ⟨.tick t ht, fun _ _ h => h⟩
    · exact ⟨.load t, fun _ _ h => h⟩
    · exact ⟨.call none c (fun _ => hc) i r s' hr, fun _ _ h => h⟩
  · rintro n s _ new ⟨config, -, rfl, -⟩
    exact ⟨.restart config, fun p _ => .any (fun _ _ => trivial)⟩

end Circumstances

/-! ### Computing a run -/

/-- The answer to a call of thread `i`, with its note. -/
def History.exec {β : Type} (k : Reply) (i : ℕ) (h : History) (c : Call β) :
    Option (β × History) :=
  (h.site.exec k i c).map (fun x => (x.1, h.add (some i) c x.1 x.2))

theorem History.exec_spec {β : Type} {k : Reply} {i : ℕ} {h h' : History} {c : Call β} {r : β}
    (he : h.exec k i c = some (r, h')) :
    ∃ s, Site.Replies everyFault i c h.site r s ∧ h' = h.add (some i) c r s := by
  obtain ⟨x, hx, heq⟩ := Option.map_eq_some_iff.mp he
  cases heq
  exact ⟨x.2, Site.exec_replies hx, rfl⟩

/-- A schedule of a run. -/
abbrev Schedule := List (Move History Call Reply)

/-- A thread's next calls, answered one after the other. -/
def thread (i : ℕ) (replies : List Reply) : Schedule := replies.map (Move.call i)

/-- A command on the host. -/
def onHost {β : Type} (q : AuthCall β) : Move History Call Reply :=
  .outside (fun h =>
    let x := answered h.site.db (q.run h.site.db)
    h.add none (.auth q) x.1 { h.site with db := x.2 })

/-- The clock moves on to a time. -/
def clockTo (t : Instant) : Move History Call Reply :=
  .outside (fun h => { h with site := { h.site with clock := max h.site.clock t } })

/-- The pool a schedule leads to from a fresh installation, if it can be played. -/
def played (config : Config) (moves : Schedule) : Option (Pool History Call) :=
  play (fun _ k i h c => History.exec k i h c) moves ⟨⟨{ config := config }, []⟩, []⟩

namespace Circumstances

variable {C : Circumstances}

theorem exec_answer (hC : C.fails = everyFault) {β : Type} {k : Reply} {i : ℕ} {h h' : History}
    {c : Call β} {r : β} (he : h.exec k i c = some (r, h')) : C.system.answer i h c r h' := by
  obtain ⟨s, hs, heq⟩ := History.exec_spec he
  exact ⟨s, hC.symm ▸ hs, heq⟩

theorem thread_of (i : ℕ) (replies : List Reply) :
    ∀ m ∈ thread i replies, m.Of C.system := by
  intro m hm
  obtain ⟨k, -, rfl⟩ := List.mem_map.mp hm
  trivial

theorem onHost_of (hC : C.fails = everyFault) {β : Type} {q : AuthCall β}
    (hq : C.host (.auth q)) : (onHost q).Of C.system := by
  intro h
  apply Outside.command _ hq 0
  rw [hC]
  exact Site.exec_replies (k := .plain) rfl

/-- A schedule from a fresh installation that can be played to its end leads to
    a pool that can be reached. -/
theorem played_reachable (hC : C.fails = everyFault) (config : Config) {moves : Schedule}
    (hm : ∀ m ∈ moves, m.Of C.system) {α : Type} {f : Pool History Call → α} {a : α}
    (h : (played config moves).map f = some a) : ∃ c, C.Reachable config c ∧ f c = a := by
  obtain ⟨c, hc, rfl⟩ := Option.map_eq_some_iff.mp h
  exact ⟨c, play_reaches (fun _ _ _ _ _ _ _ he => exec_answer hC he) hm hc, rfl⟩

end Circumstances

end Pgfy
