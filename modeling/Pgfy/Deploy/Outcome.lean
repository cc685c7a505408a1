import Pgfy.Deploy.Killed

/-! # What an update that ends has done

    An update that ends with an error leaves the installed release in place and
    running, one that ends normally the new one, wherever an exception or a
    signal comes, with three exceptions. The record of the snapshot is removed
    before the flag `committed` is set, and a signal in between starts a rollback
    that takes the missing record for an update that never began. A signal that
    comes when an exception has ended the `try` and signals are not yet ignored
    keeps the rollback from starting. And after the commit point an exception that
    the clean-up does not catch ends the update with an error although the new
    release stays.
-/

namespace Pgfy.Deploy

open Program Regime

variable {F new : ManagedFile → Content} {old : Release} {h h' : Host}

/-! ### Quiet runs -/

/-- Exceptions that do not show after the commit point: any of the `fsync`, and
    those the clean-up catches. -/
def Tool.Spared {α : Type} : Tool α → PyError → Prop
  | say, _ => False
  | fsyncDir, _ => True
  | _, e => e.isInstall = true ∨ e.isOs = true

/-- Any tool may fail in any way, apart from the tools of the rollback, which are
    called with signals ignored. -/
def handledReplies : Answers Host Step := fun _ h c r h' =>
  anyReplies h c r h' ∧
    match c, r with
    | .tool t, r => h.shield = true → ∃ ch, t.works ch h = (r, h')
    | .shield _, _ => True

/-- The record is not removed by a call that raises, no signal comes when signals
    are about to be ignored, and after the commit point only exceptions come that do
    not show. -/
def quietReplies : Answers Host Step := fun _ h c r h' =>
  handledReplies h c r h' ∧
    match c, r with
    | .tool t, .error e =>
      (h.unlinked = false → h'.unlinked = false) ∧ (h.unlinked = true → t.Spared e)
    | .shield on, .error _ => on = false ∧ h.unlinked = false
    | .tool _, .ok _ => True
    | .shield _, .ok _ => True

def quiet (F : ManagedFile → Content) (old : Release) : Regime F old where
  answer := quietReplies
  inv _ := True
  good := False
  any h := h.1.1
  works h := h.elim
  keeps _ _ _ := trivial

/-- The same while signals are ignored. -/
def shieldedQuiet (F : ManagedFile → Content) (old : Release) : Regime F old where
  answer := quietReplies
  inv h := h.shield = true
  good := True
  any h := h.1.1
  works _ _ _ _ _ _ hs h := h.1.2 hs
  keeps hs h _ := h.trans hs

theorem quiet_not_late : ¬ (quiet F old).Late := by
  rintro ⟨h, h', e, ⟨-, hkept, -⟩, hu, hu'⟩
  rw [hkept hu] at hu'
  cases hu'

/-- A part of an update with signals ignored. A signal right after it changes only
    the exception, and comes before the commit point. -/
theorem triple_shielded_quiet {α : Type} {P : Host → Prop} {Q : α → Host → Prop}
    {E : PyError → Host → Prop} {p : Py α} (hP : (quiet F old).setting.Keeps P)
    (hQ : ∀ r, (quiet F old).setting.Keeps (Ends Q E r))
    (hshield : ∀ h b, P h → P { h with shield := b })
    (hend : ∀ r h b, Ends Q E r h → Ends Q E r { h with shield := b })
    (hlate : ∀ r h e, Ends Q E r h → Linked h → E e h)
    (hp : Triple (shieldedQuiet F old).setting P p (Ends Q E)) :
    Triple (quiet F old).setting P (shielded p) (Ends Q E) := by
  have hon : (quiet F old).setting.Keeps (fun h => P h ∧ h.shield = true) :=
    fun s s' hl hs => ⟨hP s s' hl hs.1, ((Host.Lives.within hl).shield).trans hs.2⟩
  refine Triple.seq (Q := fun _ h => P h ∧ h.shield = true)
    (Triple.ask (Setting.Keeps.ends (fun _ => hon) (fun e => hQ (.error e)))
      (fun s r s' _ hs ha => ⟨trivial, trivial, ?_⟩)) (fun _ => ?_)
  · rcases ha.1.1 with ⟨rfl, rfl⟩ | ⟨text, rfl, -⟩
    · exact ⟨hshield s true hs, rfl⟩
    · exact absurd ha.2.1 (by decide)
  refine Triple.lift (Q := Ends Q E) (fun s hs => ?_) (fun r => ?_)
  · refine Safe.narrow (S := (quiet F old).setting) (I := fun h => h.shield = true)
      (fun _ _ => trivial) (fun s s' hl hi => ((Host.Lives.within hl).shield).trans hi)
      (hs s (Host.Lives.refl s) trivial).2 ?_
    exact hp s (fun s' hl _ => (hs s' hl trivial).1)
  · refine Triple.seq (Q := fun _ => Ends Q E r) (Triple.ask
      (Setting.Keeps.ends (fun _ => hQ r) (fun e => hQ (.error e)))
      (fun s a s' _ hs ha => ⟨trivial, trivial, ?_⟩)) (fun _ => Triple.ret (fun _ hr => hr))
    rcases ha.1.1 with ⟨rfl, rfl⟩ | ⟨text, rfl, rfl⟩
    · exact hend r s false hs
    · exact hlate r _ _ (hend r s false hs) ha.2.2

/-! ### The handler -/

/-- The installed release is in place and runs. -/
def Back (F : ManagedFile → Content) (old : Release) (h : Host) : Prop :=
  Home F old h ∧ h.app = .running old

theorem keeps_back {R : Regime F old} : R.setting.Keeps (Back F old) :=
  fun _ _ hl hb => ⟨hb.1.lives hl, ((Host.Lives.within hl).app (by decide)).trans hb.2⟩

theorem Back.shield (hb : Back F old h) (b : Bool) : Back F old { h with shield := b } :=
  ⟨⟨hb.1.files, hb.1.db, hb.1.app⟩, hb.2⟩

theorem RolledBack.back (hr : RolledBack F old h) : Back F old h := by
  obtain ⟨m, hm, -, hw⟩ := hr.db
  refine ⟨⟨hr.files, ⟨m, hm, hw⟩, fun r happ => ?_⟩, hr.app⟩
  rw [hr.app] at happ
  exact (Option.some.inj happ).symm

theorem sure_abandon {R : Regime F old} (hgood : R.good) (hF : (F .composeEnv).release = old)
    (wasRunning : Bool) (step : String) (e : PyError) :
    Triple R.setting (Safely F old) (abandon wasRunning step e)
      (Ends (fun _ _ => False) (fun _ => Back F old)) := by
  refine Triple.seq ((apart_safely.rmtreeAnyway hF hgood).errors (fun _ _ hf => hf.elim))
    (fun _ => ?_)
  refine Triple.seq (Q := fun _ => Safely F old) (triple_catching (E := fun _ _ => False)
    (triple_sure hgood (Setting.Keeps.ends (fun _ => keeps_safely) (fun _ => keeps_const _))
      (fun h hs ch => ?_)) (fun _ _ => Triple.vacuous (fun _ hf => hf))
    (fun _ _ _ hf => hf.elim)) (fun _ => ?_)
  · have hs' := hs.1.leaves (t := Tool.discardSnapshot) hF rfl (Or.inr (Or.inl ⟨ch, rfl⟩))
    exact ⟨Or.inr (Or.inl hs'), hs'⟩
  refine Triple.seq ((sure_unquiesce hgood hF wasRunning).errors (fun _ _ hf => hf.elim))
    (fun _ => ?_)
  cases e.isInstall with
  | true | false => exact Triple.fail (fun _ hr => ⟨hr.1.1.1, hr.1.2⟩)

theorem sure_revert {R : Regime F old} (hgood : R.good) (hF : (F .composeEnv).release = old)
    (step : String) (e : PyError) :
    Triple R.setting (Armed F old) (revert step e)
      (Ends (fun _ _ => False) (fun _ => Back F old)) := by
  refine Triple.seq (((sure_rollbackUpdate hgood hF _).pre (fun _ ha => Or.inr ha)).errors
    (fun _ _ hf => hf.elim)) (fun text => ?_)
  exact Triple.fail (fun _ hr => hr.back)

/-! ### The clean-up -/

/-- The new release is in place, and the update has committed. -/
def Committed (new : ManagedFile → Content) (h : Host) : Prop :=
  Switched new h ∧ h.unlinked = true

theorem keeps_committed {R : Regime F old} : R.setting.Keeps (Committed new) :=
  keeps_switched.and (keeps_of_within (fun _ _ hw hu => (hw.unlinked (by decide)).trans hu))

theorem Committed.shield (hc : Committed new h) (b : Bool) :
    Committed new { h with shield := b } :=
  ⟨⟨⟨hc.1.opened.files, hc.1.opened.db, hc.1.opened.app⟩, hc.1.app⟩, hc.2⟩

/-- Tools of the clean-up. -/
def Tool.clearing {α : Type} : Tool α → Bool
  | maintenance _ => true
  | t => t.touches.all (fun p => decide (p = .dir ∨ p = .snapshot))

theorem Copy.head_setMaintenance {c : Copy} {r : Release} (on : Bool)
    (hc : ∃ m, c = .whole m ∧ m.writers.head? = some r) :
    ∃ m, c.setMaintenance on = .whole m ∧ m.writers.head? = some r := by
  obtain ⟨m, rfl, hm⟩ := hc
  exact ⟨_, rfl, hm⟩

theorem Committed.within {ps : List Part} (hc : Committed new h) (hw : h.Within ps h')
    (hps : ∀ p ∈ ps, p = .dir ∨ p = .snapshot) : Committed new h' := by
  have hnot : ∀ p, p ≠ .dir → p ≠ .snapshot → p ∉ ps :=
    fun p hd hs hm => (hps p hm).elim hd hs
  refine ⟨⟨⟨fun f => ?_, ?_, ?_⟩, ?_⟩, ?_⟩
  · rw [hw.files f (hnot _ (by simp) (by simp))]
    exact hc.1.opened.files f
  · rw [hw.db (hnot _ (by simp) (by simp))]
    exact hc.1.opened.db
  · rw [hw.app (hnot _ (by simp) (by simp))]
    exact hc.1.opened.app
  · exact (hw.app (hnot _ (by simp) (by simp))).trans hc.1.app
  · exact (hw.unlinked (hnot _ (by simp) (by simp))).trans hc.2

theorem Committed.maintenance (hc : Committed new h) {on : Bool}
    (hl : (Tool.maintenance on).Leaves h h') : Committed new h' := by
  rcases hl with rfl | ⟨ch, rfl⟩ | ⟨a, hslip⟩ | hb
  · exact hc
  · simp only [Tool.works]
    split
    · exact ⟨⟨⟨hc.1.opened.files, Copy.head_setMaintenance on hc.1.opened.db, hc.1.opened.app⟩,
        hc.1.app⟩, hc.2⟩
    · exact hc
  · exact hslip.elim
  · exact hb.elim

theorem Committed.leaves {α : Type} {t : Tool α} (ht : t.clearing = true)
    (hc : Committed new h) (hl : t.Leaves h h') : Committed new h' := by
  have hparts : t.touches.all (fun p => decide (p = .dir ∨ p = .snapshot)) = true →
      Committed new h' := fun hall => hc.within hl.within
    (fun p hp => of_decide_eq_true (List.all_eq_true.mp hall p hp))
  cases t
  case maintenance on => exact hc.maintenance hl
  all_goals exact hparts ht

/-- A tool of the clean-up in a quiet run. -/
theorem triple_clear {α : Type} {t : Tool α} (ht : t.clearing = true) :
    Triple (quiet F old).setting (Committed new) (tool t)
      (Ends (fun _ => Committed new) (fun e h => Committed new h ∧ t.Spared e)) := by
  refine Regime.tool (Setting.Keeps.ends (fun _ => keeps_committed)
    (fun _ => keeps_committed.and (keeps_const _))) (fun h r h' hc hr => ?_)
  have hc' := hc.leaves ht hr.leaves
  refine ⟨Or.inl hc'.2, ?_⟩
  cases r with
  | ok a => exact hc'
  | error e => exact ⟨hc', hr.answer.2.2 hc.2⟩

/-- After the commit point a message is given without an error. -/
theorem triple_say :
    Triple (quiet F old).setting (Committed new) (tool .say)
      (Ends (fun _ => Committed new) (fun _ _ => False)) :=
  (triple_clear rfl).errors (fun _ _ he => he.2)

theorem triple_tidy {p : Py Unit} (hp : Triple (quiet F old).setting (Committed new) p
      (Ends (fun _ => Committed new)
        (fun e h => Committed new h ∧ (e.isInstall = true ∨ e.isOs = true)))) :
    Triple (quiet F old).setting (Committed new) (tidy p)
      (Ends (fun _ => Committed new) (fun _ _ => False)) := by
  refine triple_catching hp (fun e _ => triple_say.pre (fun _ he => he.1)) (fun e h hno he => ?_)
  rcases he.2 with hinstall | hos
  · rw [hinstall] at hno
    cases hno
  · rw [hos, Bool.or_true] at hno
    cases hno

theorem triple_finish :
    Triple (quiet F old).setting (Committed new) finish
      (Ends (fun _ => Committed new) (fun _ _ => False)) := by
  refine Triple.seq (triple_tidy (triple_clear rfl)) (fun _ => ?_)
  refine Triple.seq (triple_tidy (triple_clear rfl)) (fun _ => ?_)
  refine Triple.seq (triple_tidy (triple_clear rfl)) (fun _ => ?_)
  refine Triple.seq (triple_tidy ?_) (fun _ => triple_say)
  refine Triple.seq (triple_clear (t := Tool.entries) rfl) (fun es => ?_)
  refine Triple.seq (Triple.forEach (L := fun _ => Committed new)
    (fun e rest => triple_clear (t := Tool.remove e) rfl) es) (fun _ => ?_)
  exact triple_clear (t := Tool.removeDir) rfl

theorem triple_committed :
    Triple (quiet F old).setting (Committed new) committed
      (Ends (fun _ => Committed new) (fun _ _ => False)) := by
  refine Triple.lift (triple_clear (t := Tool.fsyncDir) rfl) (fun r => ?_)
  cases r with
  | ok _ => exact triple_finish
  | error e =>
    refine Triple.seq (Q := fun _ => Committed new) ?_ (fun _ => triple_finish)
    refine (triple_shielded_quiet keeps_committed (Setting.Keeps.ends (fun _ => keeps_committed)
      (fun _ => keeps_const _)) (fun h b hc => hc.shield b) (fun r h b hr => ?_)
      (fun r h e hr hl => ?_) (Triple.done (fun _ hc => hc))).pre (fun _ he => he.1)
    · cases r with
      | ok a => exact Committed.shield hr b
      | error e => exact hr
    · cases r with
      | ok a => exact absurd (hl.symm.trans hr.2) (by decide)
      | error e => exact hr

/-! ### The update -/

theorem triple_updateFrom_quiet (hF : (F .composeEnv).release = old) (own : Rendering)
    (bundle : Bundle) (drain wasRunning : Bool) (state cfg : Content) :
    Triple (quiet F old).setting (fun h => Untouched F old h ∧ Linked h)
      (updateFrom own bundle drain wasRunning state cfg)
      (Ends (fun _ h => ∃ generation, Switched (renewed own bundle state cfg generation) h)
        (fun _ => Back F old)) := by
  -- a handler always ends with an exception
  have hhandler : ∀ {P : Host → Prop} {p : Py Unit}, (quiet F old).setting.Keeps P →
      (∀ h b, P h → P { h with shield := b }) →
      Triple (shieldedQuiet F old).setting P p (Ends (fun _ _ => False) (fun _ => Back F old)) →
      Triple (quiet F old).setting P (shielded p)
        (Ends (fun _ h => ∃ generation, Switched (renewed own bundle state cfg generation) h)
          (fun _ => Back F old)) := by
    intro P p hP hshield hp
    refine (triple_shielded_quiet hP (Setting.Keeps.ends (fun _ => keeps_const _)
      (fun _ => keeps_back)) hshield (fun r h b hr => ?_) (fun r h e hr _ => ?_) hp).post
      (fun r h hr => ?_)
    · cases r with
      | ok a => exact hr
      | error e => exact Back.shield hr b
    · cases r with
      | ok a => exact hr.elim
      | error e => exact hr
    · cases r with
      | ok a => exact hr.elim
      | error e => exact hr
  refine Triple.lift (triple_preparing_linked (renewed own bundle state cfg "") hF bundle drain
    wasRunning state) (fun r => ?_)
  cases r with
  | error se =>
    exact hhandler keeps_safely (fun _ b hs => hs.shield b) (sure_abandon trivial hF _ _ _)
  | ok _ =>
    refine Triple.lift (triple_applying own bundle state cfg) (fun r => ?_)
    cases r with
    | error se =>
      refine (hhandler keeps_armed (fun _ _ ha => ha) (sure_revert trivial hF _ _)).pre
        (fun h hp => ?_)
      exact hp.resolve_right (fun hlate => quiet_not_late hlate.2)
    | ok _ =>
      refine Triple.exist (fun generation => keeps_committed) (fun generation => ?_)
      refine Triple.post (Q := Ends (fun _ => Committed (renewed own bundle state cfg generation))
        (fun _ _ => False)) triple_committed (fun r h hr => ?_)
      cases r with
      | ok a => exact ⟨generation, hr.1⟩
      | error e => exact hr.elim

theorem triple_update_quiet (hF : (F .composeEnv).release = old) (own : Rendering)
    (bundle : Bundle) (drain : Bool) :
    Triple (quiet F old).setting (fun h => Back F old h ∧ Linked h) (update own bundle drain)
      (Ends (fun _ h => ∃ state cfg generation, state.Same (F .stateJson) ∧
          cfg.Same (F .installJson) ∧ Switched (renewed own bundle state cfg generation) h)
        (fun _ => Back F old)) := by
  have hkeeps : (quiet F old).setting.Keeps (fun h => Back F old h ∧ Linked h) :=
    keeps_back.and keeps_linked
  have hnodir : (quiet F old).setting.Keeps (fun h => h.dir = none) :=
    keeps_of_within (fun _ _ hw hd => (hw.dir (by decide)).trans hd)
  have hlook : ∀ {α : Type} {t : Tool α}, t.touches = [] →
      Triple (quiet F old).setting (fun h => (Back F old h ∧ Linked h) ∧ h.dir = none) (tool t)
        (Ends (fun _ h => (Back F old h ∧ Linked h) ∧ h.dir = none) (fun _ => Back F old)) :=
    fun ht => (triple_reading ht (hkeeps.and hnodir) (fun _ => hkeeps.and hnodir)
      (fun _ _ hp _ => hp)).errors (fun _ _ hp => hp.1.1)
  have hread : ∀ {P : Host → Prop} (f : ManagedFile), (quiet F old).setting.Keeps P →
      (∀ h, P h → Back F old h) → Triple (quiet F old).setting P (tool (.read f))
        (Ends (fun c h => P h ∧ c.Same (F f)) (fun _ => Back F old)) := by
    refine fun f hP hback => (triple_reading rfl hP (fun c => hP.and (keeps_const _))
      (fun h c hp hr => ⟨hp, ?_⟩)).errors (fun _ h hp => hback h hp)
    obtain ⟨ch, hw⟩ := hr.ok_works.resolve_right id
    cases hw
    exact (hback h hp).1.files f
  refine Triple.seq (hread .stateJson hkeeps (fun _ hp => hp.1))
    (fun state => Triple.given (fun hstate => ?_))
  -- an earlier update that did not finish is refused
  refine Triple.seq (Q := fun earlier h => (Back F old h ∧ Linked h) ∧
    (earlier = false → h.dir = none)) ((triple_reading rfl hkeeps (fun earlier => hkeeps.and
      (keeps_of_within (fun _ _ hw hd he => (hw.dir (by decide)).trans (hd he))))
      (fun h earlier hp hr => ⟨hp, fun he => ?_⟩)).errors (fun _ _ hp => hp.1))
    (fun earlier => ?_)
  · obtain ⟨ch, hw⟩ := hr.ok_works.resolve_right id
    cases hw
    exact Option.isNone_iff_eq_none.mp (by simpa using he)
  refine Triple.seq (Q := fun _ h => (Back F old h ∧ Linked h) ∧ h.dir = none) ?_ (fun _ => ?_)
  · cases earlier with
    | true => exact Triple.fail (fun _ hp => hp.1.1)
    | false => exact Triple.done (fun _ hp => ⟨hp.1, hp.2 rfl⟩)
  refine Triple.seq (hlook rfl) (fun _ => ?_)
  refine Triple.seq (hread .installJson (hkeeps.and hnodir) (fun _ hp => hp.1.1))
    (fun cfg => Triple.given (fun hcfg => ?_))
  refine Triple.seq (hlook rfl) (fun status => ?_)
  refine ((triple_updateFrom_quiet hF own bundle drain _ state cfg).pre
    (fun h hp => ⟨⟨hp.1.1.1, hp.2⟩, hp.1.2⟩)).post (fun r h hr => ?_)
  cases r with
  | ok a =>
    obtain ⟨generation, hs⟩ := hr
    exact ⟨state, cfg, generation, hstate, hcfg, hs⟩
  | error e => exact hr

/-- What an update of a running installation has done when it ends, in every
    quiet run. -/
theorem update_all_or_nothing {h0 h1 : Host} (hi : Installed h0)
    (hrunning : h0.app = .running h0.configured) {own : Rendering} {bundle : Bundle}
    {drain : Bool} {r : Except PyError Unit}
    (run : Trace quietReplies Host.Lives (update own bundle drain) h0 (some r) h1) :
    (∀ e, r = .error e → (∀ f, (h1.files f).Same (h0.files f)) ∧ h1.db.Of h0.configured ∧
        h1.app = .running h0.configured) ∧
      (∀ u, r = .ok u → (∃ state cfg generation, state.Same (h0.files .stateJson) ∧
          cfg.Same (h0.files .installJson) ∧
          ∀ f, h1.files f = renewed own bundle state cfg generation f) ∧
        (∃ m, h1.db = .whole m ∧ m.writers.head? = some bundle.release) ∧
        h1.app = .running bundle.release) := by
  have hF : (h0.files .composeEnv).release = h0.configured := rfl
  have hsafe := (triple_update_quiet (F := h0.files) hF own bundle drain).safe
    (keeps_back.and keeps_linked) ⟨⟨hi.home, hrunning⟩, hi.linked⟩
  have hend := (hsafe.trace (fun _ _ hl => hl) (fun _ _ _ _ => trivial) run trivial).2 r rfl
  refine ⟨fun e he => ?_, fun u hu => ?_⟩
  · subst he
    exact ⟨hend.1.files, hend.1.db, hend.2⟩
  · subst hu
    obtain ⟨state, cfg, generation, hstate, hcfg, hs⟩ := hend
    exact ⟨⟨state, cfg, generation, hstate, hcfg, hs.opened.files⟩, hs.opened.db, hs.app⟩

/-! ### Signals -/

/-- A signal arrives with the answer of a tool, unless signals are ignored or the
    update has committed, and where signals are about to be ignored if `again` says so. -/
def signalled (hit : ∀ ⦃α : Type⦄, Tool α → Bool) (again : Bool) :
    ∀ ⦃β : Type⦄, Host → Step β → β × Host
  | _, h, .tool t =>
    if hit t && !h.shield && !h.unlinked then
      (.error (.interrupted "signal 1"), (t.works {} h).2)
    else t.works {} h
  | _, h, .shield on =>
    if on && again then (.error (.interrupted "signal 2"), { h with shield := false })
    else (.ok (), { h with shield := on })

theorem signalled_handled (hit : ∀ ⦃α : Type⦄, Tool α → Bool) (again : Bool) ⦃β : Type⦄
    (h : Host) (c : Step β) :
    handledReplies h c (signalled hit again h c).1 (signalled hit again h c).2 := by
  cases c with
  | tool t =>
    by_cases hcond : (hit t && !h.shield && !h.unlinked) = true
    · simp only [signalled, if_pos hcond]
      refine ⟨Or.inr (Or.inr ⟨_, rfl, Or.inr (Or.inl ⟨{}, rfl⟩)⟩), fun hs => ?_⟩
      simp [hs] at hcond
    · simp only [signalled, if_neg hcond]
      exact ⟨Or.inl ⟨{}, rfl⟩, fun _ => ⟨{}, rfl⟩⟩
  | shield on =>
    by_cases hcond : (on && again) = true
    · simp only [signalled, if_pos hcond]
      exact ⟨Or.inr ⟨_, rfl, rfl⟩, trivial⟩
    · simp only [signalled, if_neg hcond]
      exact ⟨Or.inl ⟨rfl, rfl⟩, trivial⟩

/-- A tool that works and refuses has done nothing, with an error the clean-up
    would catch. -/
theorem Tool.works_error {α : Type} {t : Tool α} {ch : Chance} {e : PyError}
    (hw : t.works ch h = (.error e, h')) : h' = h ∧ t.Spared e := by
  cases t
  all_goals
    simp only [Tool.works] at hw
    repeat' split at hw
    all_goals cases hw
    all_goals refine ⟨rfl, ?_⟩
    all_goals first | exact Or.inl rfl | exact Or.inr rfl

theorem signalled_quiet {hit : ∀ ⦃α : Type⦄, Tool α → Bool}
    (hhit : ∀ ⦃α : Type⦄ (t : Tool α), hit t = true → .mark ∉ t.touches) ⦃β : Type⦄ (h : Host)
    (c : Step β) :
    quietReplies h c (signalled hit false h c).1 (signalled hit false h c).2 := by
  refine ⟨signalled_handled hit false h c, ?_⟩
  cases c with
  | tool t =>
    by_cases hcond : (hit t && !h.shield && !h.unlinked) = true
    · simp only [signalled, if_pos hcond]
      simp only [Bool.and_eq_true, Bool.not_eq_true'] at hcond
      refine ⟨fun hu => ?_, fun hu => ?_⟩
      · exact ((t.works_within {} h).unlinked (hhit t hcond.1.1)).trans hu
      · rw [hcond.2] at hu
        cases hu
    · simp only [signalled, if_neg hcond]
      cases hw : t.works {} h with
      | mk r h' => cases r with
        | ok a => trivial
        | error e =>
          obtain ⟨rfl, hspared⟩ := Tool.works_error hw
          exact ⟨fun hu => hu, fun _ => hspared⟩
  | shield on => simp [signalled]

/-- The tool that verifies the new release is hit. -/
def atVerify ⦃α : Type⦄ : Tool α → Bool
  | .verify => true
  | _ => false

/-- The removal of the record is hit. -/
def atCommit ⦃α : Type⦄ : Tool α → Bool
  | .unlinkRecord => true
  | _ => false

/-- An update with a signal, or with two. -/
def signalledUpdate (hit : ∀ ⦃α : Type⦄, Tool α → Bool) (again : Bool) :
    Except PyError Unit × Host :=
  (update plainRendering secondRelease false).run (signalled hit again) firstRelease

theorem update_all_or_nothing_once :
    (signalledUpdate atVerify false).1.isOk = false ∧
      (signalledUpdate atVerify false).2.app = .running "v0.1.0" ∧
      (signalledUpdate atVerify false).2.db.Of "v0.1.0" := by
  have hquiet : ∀ ⦃β : Type⦄ (h : Host) (c : Step β),
      quietReplies h c (signalled atVerify false h c).1 (signalled atVerify false h c).2 := by
    refine signalled_quiet (fun α t ht => ?_)
    cases t <;> first | cases ht; done | simp [Tool.touches]
  have hend := update_all_or_nothing firstRelease_installed rfl
    (Prog.run_trace hquiet (update plainRendering secondRelease false) firstRelease)
  have herror : (signalledUpdate atVerify false).1.isOk = false := by decide +kernel
  refine ⟨herror, ?_⟩
  unfold signalledUpdate at herror ⊢
  cases hr : ((update plainRendering secondRelease false).run (signalled atVerify false)
    firstRelease).1 with
  | ok a =>
    rw [hr] at herror
    cases herror
  | error e =>
    obtain ⟨-, hdb, happ⟩ := hend.1 e hr
    exact ⟨happ, hdb⟩

/-- A signal that arrives when the record is gone and `committed` is not set: the
    update ends with an error that says nothing was applied, and the new release is
    in place and runs. So it does after a signal during the verification and
    another before signals are ignored, which keeps the rollback from starting. -/
theorem update_committed_with_error :
    (∃ r h1, Trace handledReplies Host.Lives (update plainRendering secondRelease false)
        firstRelease (some r) h1 ∧ r = .error (.install notApplied) ∧
      (h1.files .stateJson).release = "v0.2.0" ∧ h1.app = .running "v0.2.0") ∧
    ∃ r h1, Trace handledReplies Host.Lives (update plainRendering secondRelease false)
        firstRelease (some r) h1 ∧ r = .error (.interrupted "signal 2") ∧
      (h1.files .stateJson).release = "v0.2.0" ∧ h1.app = .running "v0.2.0" := by
  constructor
  · refine ⟨(signalledUpdate atCommit false).1, (signalledUpdate atCommit false).2,
      Prog.run_trace (signalled_handled atCommit false) _ _, ?_, ?_, ?_⟩
    all_goals decide +kernel
  · refine ⟨(signalledUpdate atVerify true).1, (signalledUpdate atVerify true).2,
      Prog.run_trace (signalled_handled atVerify true) _ _, ?_, ?_, ?_⟩
    all_goals decide +kernel

end Pgfy.Deploy
