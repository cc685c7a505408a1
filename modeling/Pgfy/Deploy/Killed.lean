import Pgfy.Deploy.Update

/-! # Updates and rollbacks that are killed

    An update may be killed at any point, and so may the rollbacks started after
    it. As long as the update had not committed, a rollback whose tools work
    then brings the previous release back, except in one situation: the record
    is still there, but the snapshot or a saved file is already gone. A rollback
    that is killed between the removal of the snapshot and that of the record
    leaves it.
-/

namespace Pgfy.Deploy

open Program Regime

variable {F : ManagedFile → Content} {old : Release} {h h' : Host}

/-! ### Tools that may fail -/

/-- Tools may fail in any way, and the process may be killed at any point. -/
def faulty (F : ManagedFile → Content) (old : Release) : Regime F old where
  answer := anyReplies
  inv := Standing F old
  good := False
  any h := h
  works h := h.elim
  keeps _ _ h := h

/-- Once an update has committed there is nothing more to say. -/
theorem triple_unlinked {α : Type} (p : Prog Step α) :
    Triple (faulty F old).setting (fun h => h.unlinked = true) p
      (fun _ h => h.unlinked = true) := by
  refine Triple.of_calls (K := fun _ _ => True) ?_ (fun β c _ s r s' _ hu ha => ?_)
    (Prog.Calls.any (fun _ _ => trivial))
  · exact keeps_of_within (fun _ _ hw hu => (hw.unlinked (by decide)).trans hu)
  · have hu' : s'.unlinked = true := by
      cases c with
      | tool t =>
        have hl : t.Leaves s s' := anyReplies.leaves (show anyReplies s (.tool t) r s' from ha)
        by_cases hm : .mark ∈ t.touches
        · cases t
          case unlinkRecord =>
            rcases hl with rfl | ⟨ch, rfl⟩ | ⟨b, hslip⟩ | hb
            · exact hu
            · simp only [Tool.works]
              repeat' split
              · exact hu
              · rfl
              · exact hu
            · exact hslip.elim
            · exact hb.elim
          all_goals simp [Tool.touches] at hm
        · exact (hl.within.unlinked hm).trans hu
      | shield on =>
        obtain ⟨b, rfl⟩ := anyReplies.shielded (show anyReplies s (.shield on) r s' from ha)
        exact hu
    exact ⟨Or.inl hu', trivial, hu'⟩

theorem Safely.shield (hs : Safely F old h) (b : Bool) : Safely F old { h with shield := b } :=
  ⟨⟨hs.1.files, hs.1.db, hs.1.app⟩, hs.2⟩

/-- A program with signals ignored, about something that does not depend on that. -/
theorem triple_shielded_faulty {α : Type} {P : Host → Prop} {p : Py α}
    (hP : (faulty F old).setting.Keeps P) (hs : ∀ h, P h → Standing F old h)
    (hshield : ∀ h b, P h → P { h with shield := b })
    (hp : Triple (faulty F old).setting P p (fun _ => P)) :
    Triple (faulty F old).setting P (shielded p) (fun _ => P) := by
  have hask : ∀ on, Triple (faulty F old).setting P (setShield on)
      (Ends (fun _ => P) (fun _ => P)) := by
    refine fun on => Triple.ask (Setting.Keeps.ends (fun _ => hP) (fun _ => hP))
      (fun s r s' _ hps ha => ?_)
    obtain ⟨b, rfl⟩ := anyReplies.shielded (show anyReplies s (.shield on) r s' from ha)
    refine ⟨hs _ (hshield s b hps), trivial, ?_⟩
    cases r with
    | ok a | error e => exact hshield s b hps
  have hall : Triple (faulty F old).setting P (shielded p) (Ends (fun _ => P) (fun _ => P)) := by
    refine Triple.seq (hask true) (fun _ => ?_)
    refine Triple.lift hp (fun r => ?_)
    refine Triple.seq (hask false) (fun _ => Triple.ret (fun _ hps => ?_))
    cases r with
    | ok a => exact hps
    | error e => exact hps
  refine hall.post (fun r h hr => ?_)
  cases r with
  | ok a => exact hr
  | error e => exact hr

theorem triple_updateFrom_faulty (hF : (F .composeEnv).release = old) (own : Rendering)
    (bundle : Bundle) (drain wasRunning : Bool) (state cfg : Content) :
    Triple (faulty F old).setting (fun h => Untouched F old h ∧ Linked h)
      (updateFrom own bundle drain wasRunning state cfg) (fun _ _ => True) := by
  refine Triple.lift (triple_preparing_linked (renewed own bundle state cfg "") hF bundle drain
    wasRunning state) (fun r => ?_)
  cases r with
  | error se =>
    refine (triple_shielded_faulty keeps_safely (fun _ hs => Or.inr (Or.inl hs))
      (fun _ b hs => hs.shield b) ?_).post (fun _ _ _ => trivial)
    exact safely_kept hF (uses_abandon _ _ _)
  | ok _ =>
    refine Triple.lift (triple_applying own bundle state cfg) (fun r => ?_)
    cases r with
    | error se =>
      have hlives : (faulty F old).setting.Keeps (fun h => Safely F old h ∨ Armed F old h) :=
        fun _ _ hl hp => hp.imp (fun hs => hs.lives hl) (fun ha => ha.lives hl)
      refine Triple.pre (P := fun h => (Safely F old h ∨ Armed F old h) ∨ h.unlinked = true)
        (Triple.or hlives (keeps_of_within (fun _ _ hw hu => (hw.unlinked (by decide)).trans hu))
          ?_ ?_) (fun h hp => hp.elim (fun ha => Or.inl (Or.inr ha)) (fun hu => Or.inr hu.1))
      · refine (triple_shielded_faulty hlives (fun _ hp => Or.inr hp)
          (fun _ b hp => hp.imp (fun hs => hs.shield b) (fun ha => ha)) ?_).post
          (fun _ _ _ => trivial)
        refine (Triple.seq (triple_rollbackUpdate hF _) (fun _ => Triple.fail
          (fun _ hp => hp))).post (Q := Ends (fun _ h => Safely F old h ∨ Armed F old h)
            (fun _ h => Safely F old h ∨ Armed F old h)) (fun r h hr => ?_)
        cases r with
        | ok a => exact hr
        | error e => exact hr
      · exact (triple_unlinked _).post (fun _ _ _ => trivial)
    | ok _ =>
      refine ((triple_unlinked committed).pre (fun h hp => ?_)).post (fun _ _ _ => trivial)
      obtain ⟨-, -, hu⟩ := hp
      exact hu

/-- An installation at rest. -/
structure Installed (h : Host) : Prop where
  db : h.db.Of h.configured
  app : ∀ r, h.app.release = some r → r = h.configured
  linked : Linked h

theorem Installed.home (hi : Installed h) : Home h.files h.configured h :=
  ⟨fun f => .refl (h.files f), hi.db, hi.app⟩

theorem triple_update_faulty (hF : (F .composeEnv).release = old) (own : Rendering)
    (bundle : Bundle) (drain : Bool) :
    Triple (faulty F old).setting (fun h => Untouched F old h ∧ Linked h)
      (update own bundle drain) (fun _ _ => True) := by
  have hkeeps : (faulty F old).setting.Keeps (fun h => Untouched F old h ∧ Linked h) :=
    keeps_untouched.and keeps_linked
  have hlook : ∀ {α : Type} {t : Tool α}, t.touches = [] →
      Triple (faulty F old).setting (fun h => Untouched F old h ∧ Linked h) (tool t)
        (Ends (fun _ h => Untouched F old h ∧ Linked h) (fun _ _ => True)) :=
    fun ht => (triple_reading ht hkeeps (fun _ => hkeeps) (fun _ _ hp _ => hp)).errors
      (fun _ _ _ => trivial)
  refine Triple.post (Q := Ends (fun _ _ => True) (fun _ _ => True)) ?_ (fun _ _ _ => trivial)
  refine Triple.seq (hlook rfl) (fun state => ?_)
  refine Triple.seq (hlook rfl) (fun earlier => ?_)
  refine Triple.seq (Q := fun _ h => Untouched F old h ∧ Linked h) ?_ (fun _ => ?_)
  · cases earlier with
    | true => exact Triple.fail (fun _ _ => trivial)
    | false => exact Triple.done (fun _ hp => hp)
  refine Triple.seq (hlook rfl) (fun _ => ?_)
  refine Triple.seq (hlook rfl) (fun cfg => ?_)
  refine Triple.seq (hlook rfl) (fun status => ?_)
  exact (triple_updateFrom_faulty hF own bundle drain _ state cfg).post
    (fun r _ _ => by cases r <;> trivial)

/-- A rollback has been started and has ended somehow, or has been killed. -/
def Attempted (h h' : Host) : Prop :=
  ∃ o, Trace anyReplies Host.Lives (rollbackUpdate none) h o h'

/-- An update that has not committed leaves a state a rollback can start from. -/
theorem standing_of_update {h0 : Host} (hi : Installed h0) (hdir : h0.dir = none)
    {own : Rendering} {bundle : Bundle} {drain : Bool} {o : Option (Except PyError Unit)}
    (run : Trace anyReplies Host.Lives (update own bundle drain) h0 o h) :
    Standing h0.files h0.configured h := by
  have hstart : Untouched h0.files h0.configured h0 := ⟨hi.home, hdir⟩
  have hF : (h0.files .composeEnv).release = h0.configured := rfl
  have hsafe := (triple_update_faulty (F := h0.files) hF own bundle drain).safe
    (keeps_untouched.and keeps_linked) ⟨hstart, hi.linked⟩
  exact (hsafe.trace (fun _ _ hl => hl) (fun _ _ hl hs => Standing.lives hs hl) run
    (Or.inr (Or.inl hstart.safely))).1

theorem Tool.mark_of_gentle {α : Type} (t : Tool α) (ht : t.gentle = true) :
    .mark ∉ t.touches := by
  cases t <;> first | cases ht; done | simp [Tool.touches]

theorem uses_restoreAll (r : Record) :
    Uses (fun _ t => .mark ∉ t.touches) (restoreAll r) := by
  refine Uses.seq (Uses.tool (by simp [Tool.touches])) (fun _ => ?_)
  refine Uses.seq (Uses.tool (by simp [Tool.touches])) (fun _ => ?_)
  refine Uses.seq (Prog.Calls.forEach (fun f => ?_)) (fun _ => ?_)
  · refine Uses.seq (Uses.tool (by simp [Tool.touches])) (fun c => ?_)
    exact Uses.tool (by simp [Tool.touches])
  refine Uses.seq (Uses.tool (by simp [Tool.touches])) (fun _ => ?_)
  refine Uses.seq (Uses.mono (fun α t ht => ?_) (uses_stopApplication _)) (fun _ => ?_)
  · obtain ⟨-, hdir⟩ := Bool.and_eq_true_iff.mp ht
    cases t <;> simp [Tool.touches] at hdir ⊢
  refine Uses.seq (Uses.tool (by simp [Tool.touches])) (fun cfg => ?_)
  refine Uses.seq (Uses.tool (by simp [Tool.touches])) (fun generation => ?_)
  refine Uses.seq (Uses.tool (by simp [Tool.touches])) (fun _ => ?_)
  exact Uses.tool (by simp [Tool.touches])

theorem uses_rollbackUpdate (reason : Option String) :
    Uses (fun _ t => .mark ∉ t.touches) (rollbackUpdate reason) := by
  refine Uses.seq (Uses.tool (by simp [Tool.touches])) (fun recorded => ?_)
  cases recorded with
  | false => exact Uses.mono (fun _ => Tool.mark_of_gentle) uses_rollbackUnrecorded
  | true =>
    refine Uses.seq (Uses.tool (by simp [Tool.touches])) (fun r => ?_)
    refine Uses.seq (uses_raiseIf _ _) (fun _ => ?_)
    refine Uses.seq (Uses.catching (Uses.tool (by simp [Tool.touches])) (fun _ => trivial))
      (fun _ => ?_)
    refine Uses.seq (uses_restoreAll r) (fun _ => ?_)
    refine Uses.seq (Uses.mono (fun _ => Tool.mark_of_gentle) (uses_restart r)) (fun _ => ?_)
    trivial

/-- Where an update that has not committed, and rollbacks after it, have got to. -/
def Interrupted (F : ManagedFile → Content) (old : Release) (h : Host) : Prop :=
  (Safely F old h ∨ Armed F old h) ∧ Linked h

theorem Interrupted.attempted (hF : (F .composeEnv).release = old) (hi : Interrupted F old h)
    (ha : Attempted h h') : Interrupted F old h' := by
  obtain ⟨o, run⟩ := ha
  have hlives : (faulty F old).setting.Keeps (fun h => Safely F old h ∨ Armed F old h) :=
    fun _ _ hl hp => hp.imp (fun hs => hs.lives hl) (fun ha => ha.lives hl)
  have hstand : Standing F old h' := by
    refine ((((triple_rollbackUpdate hF none).post (fun _ _ _ => trivial)).safe hlives hi.1 :
      Safe (faulty F old).setting (rollbackUpdate none) (fun _ _ => True) h).trace
      (fun _ _ hl => hl) (fun _ _ hl hs => Standing.lives hs hl) run (Or.inr hi.1)).1
  have hlinked : Linked h' := by
    refine (Safe.trace (S := { (faulty F old).setting with inv := Linked })
      (fun _ _ hl => hl) (fun s s' hl hs => keeps_linked (R := faulty F old) s s' hl hs) run hi.2
      (Safe.of_calls (fun β c hc s r s' hs hr => ?_) (uses_rollbackUpdate none) h)).1
    cases c with
    | tool t =>
      have hl := anyReplies.leaves (show anyReplies s (.tool t) r s' from hr)
      exact ⟨(hl.within.unlinked hc).trans hs, trivial⟩
    | shield on => exact hc.elim
  refine ⟨hstand.resolve_left (fun hu => ?_), hlinked⟩
  rw [hlinked] at hu
  cases hu

/-! ### Rolling back after all -/

/-- All tools work. -/
def working (F : ManagedFile → Content) (old : Release) : Regime F old where
  answer := worksReplies
  inv _ := True
  good := True
  any h := anyReplies_of_works h
  works _ _ _ _ _ _ _ h := h
  keeps _ _ _ := trivial

/-- If the record is there, so are the snapshot and all saved files. -/
def Intact (h : Host) : Prop :=
  ∀ d, h.dir = some d → d.record ≠ none → h.snapshot ≠ .absent ∧ ∀ f, d.saved f ≠ none

theorem Intact.snapshot (hi : Intact h) (hr : h.record.isSome = true) : h.snapshot ≠ .absent := by
  cases hd : h.dir with
  | none =>
    rw [Host.record, hd] at hr
    cases hr
  | some d =>
    rw [Host.record, hd] at hr
    exact (hi d hd (Option.isSome_iff_ne_none.mp hr)).1

theorem Interrupted.cases (hi : Interrupted F old h) :
    (Intact h ∧ ((Safely F old h ∧ h.record = none) ∨ Armed F old h)) ∨
      (¬ Intact h ∧ Stuck F old h) := by
  have harmed : Armed F old h → Intact h := by
    rintro ⟨⟨d, r, hd, hr, -, hsaved⟩, m, hm, -⟩ d' hd' -
    obtain rfl := Option.some.inj (hd.symm.trans hd')
    refine ⟨by simp [hm], fun f => ?_⟩
    obtain ⟨c, hc, -⟩ := hsaved f
    simp [hc]
  rcases hi.1 with hs | ha
  · rcases hs.cases with hnone | ha | hstuck
    · refine Or.inl ⟨fun d hd hr => absurd ?_ hr, Or.inl ⟨hs, hnone⟩⟩
      rw [Host.record, hd] at hnone
      exact hnone
    · exact Or.inl ⟨harmed ha, Or.inr ha⟩
    · refine Or.inr ⟨fun hint => ?_, hstuck⟩
      obtain ⟨-, d, r, hd, hr, -, -, -, habsent | ⟨f, hf⟩⟩ := hstuck
      · exact (hint d hd (by simp [hr])).1 habsent
      · exact (hint d hd (by simp [hr])).2 f hf
  · exact Or.inl ⟨harmed ha, Or.inr ha⟩

/-- With working tools, the rollback finishes or fails according to what it
    finds. -/
theorem Interrupted.rollback (hF : (F .composeEnv).release = old) (hi : Interrupted F old h)
    {r : Except PyError String} (run : Trace worksReplies Host.Lives (rollbackUpdate none) h
      (some r) h') :
    (Intact h → (∃ text, r = .ok text) ∧ RolledBack F old h') ∧
      (¬ Intact h → (∃ e, r = .error e) ∧ h'.dir ≠ none) := by
  have htrace : ∀ {P : Host → Prop} {Q : Except PyError String → Host → Prop},
      (working F old).setting.Keeps P → P h →
      Triple (working F old).setting P (rollbackUpdate none) Q → Q r h' := by
    intro P Q hk hp ht
    exact ((ht.safe hk hp).trace (fun _ _ hl => hl) (fun _ _ _ _ => trivial) run trivial).2 r rfl
  rcases hi.cases with ⟨hint, hp⟩ | ⟨hint, hstuck⟩
  · refine ⟨fun _ => ?_, fun hn => absurd hint hn⟩
    have hkeeps : (working F old).setting.Keeps
        (fun h => (Safely F old h ∧ h.record = none) ∨ Armed F old h) := by
      refine fun s s' hl hp => hp.imp (fun hs => ⟨hs.1.lives hl, ?_⟩) (fun ha => ha.lives hl)
      rw [Host.record, (Host.Lives.within hl).dir (by decide)]
      exact hs.2
    have hend := htrace hkeeps hp (sure_rollbackUpdate trivial hF none)
    cases r with
    | ok text => exact ⟨⟨text, rfl⟩, hend⟩
    | error e => exact hend.elim
  · refine ⟨fun hyes => absurd hyes hint, fun _ => ?_⟩
    have hend := htrace keeps_stuck hstuck (sure_stuck_rollbackUpdate trivial hF none)
    cases r with
    | ok text => exact hend.elim
    | error e =>
      obtain ⟨-, d, -, hd, -⟩ := hend
      exact ⟨⟨e, rfl⟩, by simp [hd]⟩

theorem interrupted_after {h0 h1 h2 : Host} (hi : Installed h0) (hdir : h0.dir = none)
    {own : Rendering} {bundle : Bundle} {drain : Bool} {o : Option (Except PyError Unit)}
    (hupdate : Trace anyReplies Host.Lives (update own bundle drain) h0 o h1)
    (hlinked : h1.unlinked = false) (hkilled : Relation.ReflTransGen Attempted h1 h2) :
    Interrupted h0.files h0.configured h2 := by
  induction hkilled with
  | refl =>
    refine ⟨(standing_of_update hi hdir hupdate).resolve_left (fun hu => ?_), hlinked⟩
    rw [hlinked] at hu
    cases hu
  | tail _ ha ih => exact ih.attempted rfl ha

/-- In every state an update that has not committed and rollbacks after it can
    leave, another rollback with working tools ends; and it brings the previous
    release back exactly if nothing is missing beside the record. -/
theorem rollback_finishes_iff_intact {h0 h1 h2 : Host} (hi : Installed h0)
    (hdir : h0.dir = none) {own : Rendering} {bundle : Bundle} {drain : Bool}
    {o : Option (Except PyError Unit)}
    (hupdate : Trace anyReplies Host.Lives (update own bundle drain) h0 o h1)
    (hlinked : h1.unlinked = false) (hkilled : Relation.ReflTransGen Attempted h1 h2) :
    (∃ r h3, Trace worksReplies Host.Lives (rollbackUpdate none) h2 (some r) h3) ∧
      ((∀ r h3, Trace worksReplies Host.Lives (rollbackUpdate none) h2 (some r) h3 →
        (∃ text, r = .ok text) ∧ RolledBack h0.files h0.configured h3) ↔ Intact h2) := by
  have hint := interrupted_after hi hdir hupdate hlinked hkilled
  obtain ⟨r, h3, run⟩ : ∃ r h3,
      Trace worksReplies Host.Lives (rollbackUpdate none) h2 (some r) h3 :=
    exists_trace (fun _ => worksReplies_total) _ _
  refine ⟨⟨r, h3, run⟩, fun hall => ?_, fun hyes r h3 run => (hint.rollback rfl run).1 hyes⟩
  by_contra hno
  obtain ⟨⟨e, he⟩, -⟩ := (hint.rollback rfl run).2 hno
  obtain ⟨⟨text, htext⟩, -⟩ := hall r h3 run
  rw [he] at htext
  cases htext

/-- After the commit point there is no record, and a rollback leaves the files of
    the new release where they are. -/
theorem not_rolledBack_of_unrecorded (hnone : h.record = none) {f : ManagedFile}
    (hnew : ¬ (h.files f).Same (F f)) {r : Except PyError String}
    (run : Trace worksReplies Host.Lives (rollbackUpdate none) h (some r) h') :
    ¬ RolledBack F old h' := by
  have hfile : (working F old).setting.Keeps (fun s => s.files f = h.files f) :=
    keeps_of_within (fun _ _ hw hs => (hw.files f (by simp)).trans hs)
  have hkeeps : (working F old).setting.Keeps
      (fun s => s.record = none ∧ s.files f = h.files f) := by
    refine Setting.Keeps.and (keeps_of_within (fun s s' hw hs => ?_)) hfile
    rw [Host.record, hw.dir (by decide)]
    exact hs
  have htriple : Triple (working F old).setting
      (fun s => s.record = none ∧ s.files f = h.files f) (rollbackUpdate none)
      (Ends (fun _ s => s.files f = h.files f) (fun _ s => s.files f = h.files f)) := by
    refine Triple.seq ((triple_reading (Q := fun recorded s => s.files f = h.files f ∧
      recorded = false) rfl hkeeps (fun recorded => hfile.and (keeps_const _))
      (fun s recorded hs hr => ⟨hs.2, ?_⟩)).errors (fun _ _ hs => hs.2))
      (fun recorded => Triple.given (fun hr => ?_))
    · obtain ⟨ch, hw⟩ := hr.works trivial
      cases hw
      exact congrArg Option.isSome hs.1
    subst hr
    refine (Triple.of_calls hfile (fun β c hc s r s' _ hs ha => ⟨trivial, trivial, ?_⟩)
      uses_rollbackUnrecorded).ends (fun _ _ hs => hs) (fun _ _ hs => hs)
    cases c with
    | tool t =>
      obtain ⟨ch, hw⟩ := ha
      have hwithin := t.works_within ch s
      rw [hw] at hwithin
      refine (hwithin.files f ?_).trans hs
      cases t <;> first | cases hc; done | simp [Tool.touches]
    | shield on => exact hc.elim
  have hend := ((htriple.safe hkeeps ⟨hnone, rfl⟩).trace (fun _ _ hl => hl)
    (fun _ _ _ _ => trivial) run trivial).2 r rfl
  have hsame : h'.files f = h.files f := by
    cases r with
    | ok text => exact hend
    | error e => exact hend
  exact fun hback => hnew (hsame ▸ hback.files f)

/-! ### An installation -/

/-- Tools that work, with nothing left open. -/
def workStep : ∀ ⦃β : Type⦄, Host → Step β → β × Host
  | _, h, .tool t => t.works {} h
  | _, h, .shield on => (.ok (), { h with shield := on })

theorem workStep_works ⦃β : Type⦄ (h : Host) (c : Step β) :
    worksReplies h c (workStep h c).1 (workStep h c).2 := by
  cases c with
  | tool t => exact ⟨{}, rfl⟩
  | shield on => exact ⟨rfl, rfl⟩

def plainRendering : Rendering where
  composeEnv _ _ := ""
  caddyfile _ := ""
  pgHba _ := ""
  pgfyctl _ := ""

def firstRelease : Host where
  files _ := { release := "v0.1.0" }
  db := .whole {}
  app := .running "v0.1.0"

def secondRelease : Bundle := { release := "v0.2.0", rendering := plainRendering }

theorem firstRelease_installed : Installed firstRelease :=
  ⟨⟨{}, rfl, fun _ hw => nomatch hw⟩, fun _ hr => (Option.some.inj hr).symm, rfl⟩

/-- The update is killed after a number of calls. -/
def killedUpdate (n : ℕ) : Host :=
  ((update plainRendering secondRelease false).runFor workStep n firstRelease).2

/-- So is a rollback after it. -/
def killedRollback (n m : ℕ) : Host :=
  ((rollbackUpdate none).runFor workStep m (killedUpdate n)).2

theorem killedUpdate_trace (n : ℕ) :
    ∃ o, Trace anyReplies Host.Lives (update plainRendering secondRelease false) firstRelease o
      (killedUpdate n) :=
  ⟨_, Prog.runFor_trace (fun _ h c => anyReplies_of_works (workStep_works h c)) n _ _⟩

theorem killedRollback_attempted (n m : ℕ) : Attempted (killedUpdate n) (killedRollback n m) :=
  ⟨_, Prog.runFor_trace (fun _ h c => anyReplies_of_works (workStep_works h c)) m _ _⟩

/-- Killed while it removes the directory, its record first. -/
theorem rollback_finishes_once :
    (killedUpdate 25).record.isSome = true ∧ (killedRollback 25 33).dir.isSome = true ∧
      ∀ r h3, Trace worksReplies Host.Lives (rollbackUpdate none) (killedRollback 25 33)
        (some r) h3 →
        (∃ text, r = .ok text) ∧ RolledBack firstRelease.files firstRelease.configured h3 := by
  obtain ⟨o, run⟩ := killedUpdate_trace 25
  refine ⟨by decide +kernel, by decide +kernel, ?_⟩
  refine (rollback_finishes_iff_intact firstRelease_installed rfl run (by decide +kernel)
    (.single (killedRollback_attempted 25 33))).2.mpr (fun d hd hr => absurd ?_ hr)
  have hnone : (killedRollback 25 33).record.isSome = false := by decide +kernel
  rw [Host.record, hd] at hnone
  exact Option.isSome_eq_false_iff.mp hnone |> Option.isNone_iff_eq_none.mp

/-- Killed between the removal of the snapshot and that of the record, a
    rollback can never be finished. -/
theorem rollback_never_finishes :
    (killedUpdate 25).record.isSome = true ∧
      Attempted (killedUpdate 25) (killedRollback 25 29) ∧
      ∀ r h3, Trace worksReplies Host.Lives (rollbackUpdate none) (killedRollback 25 29)
        (some r) h3 → (∃ e, r = .error e) ∧ h3.dir ≠ none := by
  obtain ⟨o, run⟩ := killedUpdate_trace 25
  have hint := interrupted_after firstRelease_installed rfl run (by decide +kernel)
    (.single (killedRollback_attempted 25 29))
  refine ⟨by decide +kernel, killedRollback_attempted 25 29, fun r h3 hr => ?_⟩
  refine (hint.rollback rfl hr).2 (fun hyes => ?_)
  have hrecord : (killedRollback 25 29).record.isSome = true := by decide +kernel
  have habsent : (killedRollback 25 29).snapshot = .absent := by decide +kernel
  exact hyes.snapshot hrecord habsent

end Pgfy.Deploy
