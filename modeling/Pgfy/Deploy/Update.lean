import Pgfy.Deploy.Rollback

/-! # The two parts of an update

    The two parts of an update, before its snapshot is recorded and after, are
    followed with tools that may fail in any way. An exception in the first
    leaves the installed release in place; one in the second leaves all that the
    rollback needs, unless the record was removed by the call that raised.
-/

namespace Pgfy.Deploy

open Program Regime

variable {F new : ManagedFile → Content} {old : Release} {h h' : Host} {R : Regime F old}

/-! ### Tools that only look -/

theorem Host.Within.eq (hw : h.Within [] h') : h' = h := by
  obtain ⟨hfiles, hdb, hsnap, hdir, happ, hmark, hshield⟩ := hw
  cases h
  cases h'
  simp only [List.not_mem_nil, not_false_eq_true, forall_const] at *
  obtain rfl := funext hfiles
  subst hdb hsnap hdir happ hmark hshield
  rfl

theorem triple_reading {α : Type} {t : Tool α} {P : Host → Prop} {Q : α → Host → Prop}
    (ht : t.touches = []) (hP : R.setting.Keeps P) (hQ : ∀ a, R.setting.Keeps (Q a))
    (ok : ∀ h a, P h → R.Replies t h (.ok a) h → Q a h) :
    Triple R.setting P (tool t) (Ends Q (fun _ => P)) := by
  refine Triple.ask (Setting.Keeps.ends hQ (fun _ => hP)) (fun s r s' hi hp ha => ?_)
  have hr : R.Replies t s r s' := ⟨R.any ha, fun hgood => R.works hgood hi ha, ha⟩
  obtain rfl : s' = s := (ht ▸ hr.leaves.within : s.Within [] s').eq
  refine ⟨hi, trivial, ?_⟩
  cases r with
  | ok a => exact ok s' a hp hr
  | error e => exact hp

/-! ### Up to the snapshot -/

/-- Nothing of an update is there yet. -/
def Untouched (F : ManagedFile → Content) (old : Release) (h : Host) : Prop :=
  Home F old h ∧ h.dir = none

theorem Untouched.safely (hu : Untouched F old h) : Safely F old h :=
  ⟨hu.1, Or.inl (by rw [Host.record, hu.2]; rfl)⟩

theorem keeps_untouched : R.setting.Keeps (Untouched F old) :=
  fun _ _ hl hu => ⟨hu.1.lives hl, ((Host.Lives.within hl).dir (by decide)).trans hu.2⟩

/-- Tools of the pause. -/
def Tool.pausing {α : Type} (t : Tool α) : Bool := t.mild && decide (.dir ∉ t.touches)

theorem untouched_kept (hF : (F .composeEnv).release = old) {α : Type} {p : Prog Step α}
    (hp : Uses (fun _ t => t.pausing = true) p) :
    Triple R.setting (Untouched F old) p (fun _ => Untouched F old) := by
  refine of_uses keeps_untouched (fun _ hu => Or.inr (Or.inl hu.safely))
    (fun α t ht h h' hu hl => ?_) hp
  obtain ⟨hmild, hdir⟩ := Bool.and_eq_true_iff.mp ht
  exact ⟨hu.1.leaves hF hmild hl, (hl.within.dir (of_decide_eq_true hdir)).trans hu.2⟩

theorem uses_raiseIf {K : ∀ ⦃α : Type⦄, Tool α → Prop} (b : Bool) (e : PyError) :
    Uses K (raiseIf b e) := by
  cases b <;> trivial

theorem uses_awaitStopped (failure : String) (n : ℕ) :
    Uses (fun _ t => t.pausing = true) (awaitStopped failure n) := by
  induction n with
  | zero => trivial
  | succ n ih =>
    refine Uses.seq (Uses.tool rfl) (fun soon => ?_)
    cases soon with
    | false => trivial
    | true =>
      refine Uses.seq (Uses.tool rfl) (fun status => ?_)
      by_cases hs : status = .other
      · simp only [if_pos hs]
        trivial
      · simp only [if_neg hs]
        exact ih

theorem uses_stopApplication (failure : String) :
    Uses (fun _ t => t.pausing = true) (stopApplication failure) :=
  Uses.seq (Uses.tool rfl) (fun _ => uses_awaitStopped failure 60)

theorem uses_awaitJobs (n running : ℕ) :
    Uses (fun _ t => t.pausing = true) (awaitJobs n running) := by
  induction n generalizing running with
  | zero => exact uses_raiseIf _ _
  | succ n ih =>
    by_cases hr : running = 0
    · simp only [awaitJobs, if_pos hr]
      trivial
    · simp only [awaitJobs, if_neg hr]
      refine Uses.seq (Uses.tool rfl) (fun soon => ?_)
      refine Uses.seq (uses_raiseIf _ _) (fun _ => ?_)
      refine Uses.seq (Uses.tool rfl) (fun _ => ?_)
      exact Uses.seq (Uses.tool rfl) (fun running => ih running)

theorem uses_pause (drain wasRunning : Bool) :
    Uses (fun _ t => t.pausing = true) (pause drain wasRunning) := by
  cases wasRunning with
  | true =>
    refine Uses.seq (Uses.tool rfl) (fun _ => ?_)
    refine Uses.seq (Uses.tool rfl) (fun running => ?_)
    refine Uses.seq (uses_raiseIf _ _) (fun _ => ?_)
    refine Uses.seq (uses_awaitJobs 1441 running) (fun _ => ?_)
    exact uses_stopApplication notStopped
  | false =>
    refine Uses.seq (uses_stopApplication notStopped) (fun _ => ?_)
    exact Uses.tool rfl

/-! ### The snapshot -/

/-- The files apart from some have been saved; there is no record yet. -/
def SavedBut (F : ManagedFile → Content) (old : Release) (rest : List ManagedFile)
    (h : Host) : Prop :=
  Home F old h ∧ ∃ d, h.dir = some d ∧ d.record = none ∧
    ∀ f, f ∉ rest → ∃ c, d.saved f = some c ∧ c.Same (F f)

/-- The installed release is in place, without a record. -/
def Unrecorded (F : ManagedFile → Content) (old : Release) (h : Host) : Prop :=
  Home F old h ∧ h.record = none

theorem Unrecorded.safely (hu : Unrecorded F old h) : Safely F old h := ⟨hu.1, Or.inl hu.2⟩

theorem keeps_savedBut {rest : List ManagedFile} : R.setting.Keeps (SavedBut F old rest) := by
  refine fun s s' hl hs => ⟨hs.1.lives hl, ?_⟩
  rw [(Host.Lives.within hl).dir (by decide)]
  exact hs.2

theorem SavedBut.unrecorded {rest : List ManagedFile} (hs : SavedBut F old rest h) :
    Unrecorded F old h := by
  obtain ⟨hh, d, hd, hr, -⟩ := hs
  exact ⟨hh, by rw [Host.record, hd]; exact hr⟩

theorem triple_makeDir (hF : (F .composeEnv).release = old) :
    Triple R.setting (Untouched F old) (tool .makeDir)
      (Ends (fun _ => SavedBut F old updateFiles) (fun _ => Safely F old)) := by
  refine Regime.tool (Setting.Keeps.ends (fun _ => keeps_savedBut) (fun _ => keeps_safely))
    (fun h r h' hu hr => ?_)
  have hh : Home F old h' := hu.1.leaves hF rfl hr.leaves
  have hnone : h'.record = none := by
    rcases hr.leaves with rfl | ⟨ch, rfl⟩ | ⟨a, hslip⟩ | hb
    · exact by rw [Host.record, hu.2]; rfl
    · simp only [Tool.works, hu.2]
      rfl
    · exact hslip.elim
    · exact hb.elim
  refine ⟨Or.inr (Or.inl ⟨hh, Or.inl hnone⟩), ?_⟩
  cases r with
  | ok a =>
    refine ⟨hh, ?_⟩
    obtain ⟨ch, hw⟩ := hr.ok_works.resolve_right id
    simp only [Tool.works, hu.2] at hw
    obtain rfl := (Prod.mk.inj hw).2
    exact ⟨{}, rfl, rfl, fun f hf => absurd (mem_updateFiles f) hf⟩
  | error e => exact ⟨hh, Or.inl hnone⟩

theorem triple_save (hF : (F .composeEnv).release = old) (f : ManagedFile)
    (rest : List ManagedFile) :
    Triple R.setting (SavedBut F old (f :: rest)) (tool (.save f))
      (Ends (fun _ => SavedBut F old rest) (fun _ => Safely F old)) := by
  refine Regime.tool (Setting.Keeps.ends (fun _ => keeps_savedBut) (fun _ => keeps_safely))
    (fun h r h' hs hr => ?_)
  have hh : Home F old h' := hs.1.leaves hF rfl hr.leaves
  obtain ⟨hhome, d, hd, hrec, hsaved⟩ := hs
  have hnone : h'.record = none := by
    rcases hr.leaves with rfl | ⟨ch, rfl⟩ | ⟨a, hslip⟩ | ⟨d', c, hd', rfl⟩
    · rw [Host.record, hd]
      exact hrec
    · simp only [Tool.works, hd]
      exact hrec
    · exact hslip.elim
    · obtain rfl := Option.some.inj (hd.symm.trans hd')
      exact hrec
  refine ⟨Or.inr (Or.inl ⟨hh, Or.inl hnone⟩), ?_⟩
  cases r with
  | ok a =>
    refine ⟨hh, ?_⟩
    obtain ⟨ch, hw⟩ := hr.ok_works.resolve_right id
    simp only [Tool.works, hd] at hw
    obtain rfl := (Prod.mk.inj hw).2
    refine ⟨_, rfl, hrec, fun g hg => ?_⟩
    by_cases hgf : g = f
    · subst hgf
      exact ⟨h.files g, Function.update_self g _ _, hhome.files g⟩
    · obtain ⟨c, hc, hsame⟩ := hsaved g (by simp [hgf, hg])
      exact ⟨c, (Function.update_of_ne hgf _ _).trans hc, hsame⟩
  | error e => exact ⟨hh, Or.inl hnone⟩

theorem triple_storeSnapshot (hF : (F .composeEnv).release = old) :
    Triple R.setting (SavedBut F old []) (tool .storeSnapshot)
      (Ends (fun _ h => SavedBut F old [] h ∧ h.snapshot.Of old) (fun _ => Safely F old)) := by
  refine Regime.tool (Setting.Keeps.ends (fun _ => keeps_savedBut.and (keeps_of_within ?_))
    (fun _ => keeps_safely)) (fun h r h' hs hr => ?_)
  · intro s s' hw hof
    rw [hw.snapshot (by decide)]
    exact hof
  have hkept : SavedBut F old [] h' := by
    refine ⟨hs.1.leaves hF rfl hr.leaves, ?_⟩
    rw [hr.leaves.within.dir (by simp [Tool.touches])]
    exact hs.2
  refine ⟨Or.inr (Or.inl hkept.unrecorded.safely), ?_⟩
  cases r with
  | ok a =>
    refine ⟨hkept, ?_⟩
    obtain ⟨ch, hw⟩ := hr.ok_works.resolve_right id
    simp only [Tool.works, if_pos hs.1.db.isWhole] at hw
    obtain rfl := (Prod.mk.inj hw).2
    exact hs.1.db
  | error e => exact hkept.unrecorded.safely

theorem triple_writeRecord (hF : (F .composeEnv).release = old) {r : Record} (hgood : r.Good) :
    Triple R.setting (fun h => SavedBut F old [] h ∧ h.snapshot.Of old) (tool (.writeRecord r))
      (Ends (fun _ h => Armed F old h ∧ Home F old h) (fun _ => Safely F old)) := by
  refine Regime.tool (Setting.Keeps.ends (fun _ => keeps_armed.and (fun _ _ hl hh => hh.lives hl))
    (fun _ => keeps_safely)) (fun h a h' hs hr => ?_)
  have hh : Home F old h' := hs.1.1.leaves hF rfl hr.leaves
  obtain ⟨⟨hhome, d, hd, hrec, hsaved⟩, hof⟩ := hs
  have hafter : Armed F old { h with dir := some { d with record := some r } } :=
    ⟨⟨_, r, rfl, rfl, hgood, fun f => hsaved f (by simp)⟩, hof⟩
  have hkept : Unrecorded F old h := ⟨hhome, by rw [Host.record, hd]; exact hrec⟩
  have hstands : Safely F old h' := by
    rcases hr.leaves with rfl | ⟨ch, rfl⟩ | ⟨b, hslip⟩ | hb
    · exact hkept.safely
    · simp only [Tool.works, hd] at hh ⊢
      exact ⟨hh, hafter.loose⟩
    · exact hslip.elim
    · exact hb.elim
  refine ⟨Or.inr (Or.inl hstands), ?_⟩
  cases a with
  | ok b =>
    refine ⟨?_, hh⟩
    obtain ⟨ch, hw⟩ := hr.ok_works.resolve_right id
    simp only [Tool.works, hd] at hw
    obtain rfl := (Prod.mk.inj hw).2
    exact hafter
  | error e => exact hstands

theorem triple_takeSnapshot (hF : (F .composeEnv).release = old) (source target : Release) :
    Triple R.setting (Untouched F old) (takeSnapshot source target)
      (Ends (fun _ h => Armed F old h ∧ Home F old h) (fun _ => Safely F old)) := by
  refine Triple.seq (triple_makeDir hF) (fun _ => ?_)
  refine Triple.seq (Triple.forEach (fun f rest => triple_save hF f rest) updateFiles)
    (fun _ => ?_)
  refine Triple.seq (triple_storeSnapshot hF) (fun _ => ?_)
  refine Triple.seq (triple_writeRecord hF ⟨rfl, rfl⟩) (fun _ => ?_)
  have hkeeps : R.setting.Keeps (fun h => Armed F old h ∧ Home F old h) :=
    keeps_armed.and (fun _ _ hl hh => hh.lives hl)
  exact (triple_reading rfl hkeeps (fun _ => hkeeps) (fun _ _ hp _ => hp)).errors
    (fun _ h hp => ⟨hp.2, hp.1.loose⟩)

theorem triple_during {α : Type} {S : Setting Host Step} {P : Host → Prop} {Q : α → Host → Prop}
    {E : Host → Prop} {p : Py α} (step : String) (hp : Triple S P p (Ends Q (fun _ => E))) :
    Triple S P (during step p) (Ends Q (fun _ => E)) := by
  refine Triple.bind hp (fun r => ?_)
  cases r with
  | ok a => exact Triple.ret (fun _ hq => hq)
  | error e => exact Triple.ret (fun _ he => he)

/-- The part of an update before its snapshot is recorded. -/
theorem triple_preparing (hF : (F .composeEnv).release = old) (bundle : Bundle)
    (drain wasRunning : Bool) (state : Content) :
    Triple R.setting (Untouched F old) (preparing bundle drain wasRunning state)
      (Ends (fun _ h => Armed F old h ∧ Home F old h) (fun _ => Safely F old)) := by
  have hsay : Triple R.setting (Untouched F old) (tool .say)
      (Ends (fun _ => Untouched F old) (fun _ => Safely F old)) :=
    (untouched_kept hF (Uses.tool rfl)).ends (fun _ _ hu => hu) (fun _ _ hu => hu.safely)
  refine Triple.seq (triple_during _ ((untouched_kept hF (uses_pause drain wasRunning)).ends
    (fun _ _ hu => hu) (fun _ _ hu => hu.safely))) (fun _ => ?_)
  refine Triple.seq (triple_during _ hsay) (fun _ => ?_)
  exact triple_during _ (triple_takeSnapshot hF _ _)

/-! ### The new release -/

/-- Before the commit point. -/
def Linked (h : Host) : Prop := h.unlinked = false

theorem keeps_linked : R.setting.Keeps Linked :=
  keeps_of_within (fun _ _ hw hl => (hw.unlinked (by decide)).trans hl)

/-- The files of a new release, written from the state and the configuration of
    the installed one. -/
def renewed (own : Rendering) (bundle : Bundle) (state cfg : Content) (generation : String) :
    ManagedFile → Content :=
  let state := { state with release := bundle.release }
  let cfg := { cfg with release := bundle.release, generation := generation }
  fun
  | .stateJson => state
  | .composeEnv => { release := bundle.release, body := bundle.rendering.composeEnv state cfg }
  | .installJson => cfg
  | .caddyfile => { release := bundle.release, body := bundle.rendering.caddyfile cfg }
  | .pgHba => { release := bundle.release, body := bundle.rendering.pgHba state }
  | .pgfyctl => { release := bundle.release, body := own.pgfyctl bundle.release }

/-- Some files are those of the new release. -/
structure Switching (new : ManagedFile → Content) (fs : List ManagedFile) (h : Host) : Prop where
  whole : h.db.isWhole = true
  files : ∀ f ∈ fs, h.files f = new f
  linked : Linked h

theorem Copy.isWhole_written (rs : List Release) (c : Copy) :
    (c.written rs).isWhole = c.isWhole := by
  cases c <;> rfl

theorem keeps_switching {fs : List ManagedFile} : R.setting.Keeps (Switching new fs) := by
  intro s s' hl hs
  refine ⟨?_, fun f hf => ?_, keeps_linked s s' hl hs.linked⟩
  · obtain ⟨rs, -, rfl⟩ := hl
    exact (Copy.isWhole_written rs s.db).trans hs.whole
  · rw [(Host.Lives.within hl).files f (by simp)]
    exact hs.files f hf

/-- A tool of the switch. -/
theorem triple_sparing {α : Type} {t : Tool α} {P : Host → Prop} {Q : α → Host → Prop}
    (ht : t.sparing = true) (hmark : .mark ∉ t.touches) (hP : ∀ h, P h → Linked h)
    (hQ : ∀ a, R.setting.Keeps (Q a))
    (ok : ∀ h a h', P h → R.Replies t h (.ok a) h' → Q a h') :
    Triple R.setting (fun h => Armed F old h ∧ P h) (tool t)
      (Ends (fun a h => Armed F old h ∧ Q a h) (fun _ h => Armed F old h ∧ Linked h)) := by
  refine Regime.tool (Setting.Keeps.ends (fun a => keeps_armed.and (hQ a))
    (fun _ => keeps_armed.and keeps_linked)) (fun h r h' hp hr => ?_)
  have ha : Armed F old h' := hp.1.sparing ht hr.leaves
  refine ⟨Or.inr (Or.inr ha), ?_⟩
  cases r with
  | ok a => exact ⟨ha, ok h a h' hp.2 hr⟩
  | error e => exact ⟨ha, (hr.leaves.within.unlinked hmark).trans (hP h hp.2)⟩

/-- Writing a file, with the content of the new release or with another. -/
theorem triple_write {f : ManagedFile} {c : Content} {fs M : List ManagedFile}
    (hfs : ∀ g ∈ M, (g = f → c = new f) ∧ (g ≠ f → g ∈ fs)) :
    Triple R.setting (fun h => Armed F old h ∧ Switching new fs h) (tool (.write f c))
      (Ends (fun _ h => Armed F old h ∧ Switching new M h)
        (fun _ h => Armed F old h ∧ Linked h)) := by
  refine triple_sparing rfl (by simp [Tool.touches]) (fun _ hs => hs.linked)
    (fun _ => keeps_switching) (fun h a h' hs hr => ?_)
  obtain ⟨ch, hw⟩ := hr.ok_works.resolve_right id
  obtain rfl := (Prod.mk.inj hw).2
  refine ⟨hs.whole, fun g hg => ?_, hs.linked⟩
  show Function.update h.files f c g = new g
  by_cases hgf : g = f
  · rw [hgf, Function.update_self]
    exact (hfs g hg).1 hgf
  · rw [Function.update_of_ne hgf]
    exact hs.files g ((hfs g hg).2 hgf)

theorem triple_look {α : Type} {t : Tool α} (ht : t.touches = []) (fs : List ManagedFile) :
    Triple R.setting (fun h => Armed F old h ∧ Switching new fs h) (tool t)
      (Ends (fun _ h => Armed F old h ∧ Switching new fs h)
        (fun _ h => Armed F old h ∧ Linked h)) := by
  have hkeeps : R.setting.Keeps (fun h => Armed F old h ∧ Switching new fs h) :=
    keeps_armed.and keeps_switching
  exact (triple_reading ht hkeeps (fun _ => hkeeps) (fun _ _ hp _ => hp)).errors
    (fun _ h hp => ⟨hp.1, hp.2.linked⟩)

theorem triple_switch (own : Rendering) (bundle : Bundle) (state cfg : Content) :
    Triple R.setting
      (fun h => Armed F old h ∧ Switching (renewed own bundle state cfg "") [] h)
      (switch own bundle state cfg)
      (Ends (fun _ h => ∃ generation, Armed F old h ∧
          Switching (renewed own bundle state cfg generation)
            [.pgfyctl, .installJson, .stateJson] h)
        (fun _ h => Armed F old h ∧ Linked h)) := by
  refine Triple.seq (triple_look rfl _) (fun _ => ?_)
  refine Triple.seq (triple_write (M := [.stateJson]) (by simp; rfl)) (fun _ => ?_)
  -- `compose.env` is written again by the new release
  refine Triple.seq (triple_write (M := [.stateJson]) (by simp)) (fun _ => ?_)
  refine Triple.seq (triple_look rfl _) (fun generation => ?_)
  refine Triple.pre (P := fun h => Armed F old h ∧
    Switching (renewed own bundle state cfg generation) [.stateJson] h) ?_
    (fun h hp => ⟨hp.1, hp.2.whole, fun f hf => ?_, hp.2.linked⟩)
  rotate_left
  · obtain rfl := List.mem_singleton.mp hf
    exact hp.2.files _ hf
  refine Triple.seq (triple_write (M := [.installJson, .stateJson]) (by simp; rfl))
    (fun _ => ?_)
  refine Triple.seq (triple_write (M := [.pgfyctl, .installJson, .stateJson]) (by simp; rfl))
    (fun _ => ?_)
  exact Triple.seq (triple_look rfl _) (fun _ => Triple.done (fun _ hp => ⟨generation, hp⟩))

theorem triple_read {f : ManagedFile} {fs : List ManagedFile} (hf : f ∈ fs) :
    Triple R.setting (fun h => Armed F old h ∧ Switching new fs h) (tool (.read f))
      (Ends (fun c h => (Armed F old h ∧ Switching new fs h) ∧ c = new f)
        (fun _ h => Armed F old h ∧ Linked h)) := by
  have hkeeps : R.setting.Keeps (fun h => Armed F old h ∧ Switching new fs h) :=
    keeps_armed.and keeps_switching
  refine (triple_reading rfl hkeeps (fun c => hkeeps.and (keeps_const _))
    (fun h c hp hr => ⟨hp, ?_⟩)).errors (fun _ h hp => ⟨hp.1, hp.2.linked⟩)
  obtain ⟨ch, hw⟩ := hr.ok_works.resolve_right id
  cases hw
  exact hp.2.files f hf

theorem triple_converge (own : Rendering) (bundle : Bundle) (state cfg : Content)
    (generation : String) :
    Triple R.setting (fun h => Armed F old h ∧
        Switching (renewed own bundle state cfg generation) [.pgfyctl, .installJson, .stateJson] h)
      (converge bundle)
      (Ends (fun _ h => Armed F old h ∧
          Switching (renewed own bundle state cfg generation) updateFiles h)
        (fun _ h => Armed F old h ∧ Linked h)) := by
  refine Triple.seq (triple_read (by decide)) (fun state' => Triple.given (fun hstate => ?_))
  refine Triple.seq (triple_read (by decide)) (fun cfg' => Triple.given (fun hcfg => ?_))
  subst hstate hcfg
  refine Triple.seq (triple_write (M := [.composeEnv, .pgfyctl, .installJson, .stateJson])
    (by simp; rfl)) (fun _ => ?_)
  refine Triple.seq (triple_write
    (M := [.caddyfile, .composeEnv, .pgfyctl, .installJson, .stateJson]) (by simp; rfl))
    (fun _ => ?_)
  refine Triple.seq (triple_write (M := updateFiles) (by simp [updateFiles]; rfl)) (fun _ => ?_)
  exact triple_look rfl _

/-- The new release has opened the database. -/
structure Opened (new : ManagedFile → Content) (h : Host) : Prop where
  files : ∀ f, h.files f = new f
  db : ∃ m, h.db = .whole m ∧ m.writers.head? = some (new .composeEnv).release
  app : ∀ r, h.app.release = some r → r = (new .composeEnv).release

theorem keeps_opened : R.setting.Keeps (Opened new) := by
  rintro s s' ⟨rs, hrs, rfl⟩ ho
  refine ⟨ho.files, ?_, ho.app⟩
  obtain ⟨m, hm, hhead⟩ := ho.db
  refine ⟨_, by rw [hm]; rfl, ?_⟩
  cases rs with
  | nil => exact hhead
  | cons r rs =>
    show some r = some _
    rw [ho.app r (hrs r List.mem_cons_self)]

/-- The start of the new release, as far as it has come. -/
theorem triple_composeUp :
    Triple R.setting (fun h => Armed F old h ∧ Switching new updateFiles h) (tool .composeUp)
      (Ends (fun _ h => Armed F old h ∧ Opened new h ∧ Linked h)
        (fun _ h => Armed F old h ∧ Linked h)) := by
  refine triple_sparing rfl (by simp [Tool.touches]) (fun _ hs => hs.linked)
    (fun _ => keeps_opened.and keeps_linked) (fun h a h' hs hr => ?_)
  have hfiles : ∀ f, h.files f = new f := fun f => hs.files f (mem_updateFiles f)
  have hconf : h.configured = (new .composeEnv).release :=
    congrArg Content.release (hfiles .composeEnv)
  have hdb : ∃ m, h.db.written [h.configured] = .whole m ∧
      m.writers.head? = some (new .composeEnv).release := by
    cases hc : h.db with
    | absent | damaged =>
      have hwhole := hs.whole
      rw [hc] at hwhole
      cases hwhole
    | whole m => exact ⟨_, rfl, congrArg some hconf⟩
  rcases hr.ok_works with ⟨ch, hw⟩ | ⟨app, happ, rfl⟩
  · obtain rfl := (Prod.mk.inj hw).2
    refine ⟨⟨hfiles, hdb, fun r hr => ?_⟩, hs.linked⟩
    simp only [Host.started, if_pos hs.whole, App.release, Option.some.injEq] at hr
    exact hr.symm.trans hconf
  · refine ⟨⟨hfiles, hdb, fun r hr => ?_⟩, hs.linked⟩
    rcases List.mem_cons.mp happ with rfl | happ
    · exact (Option.some.inj hr).symm.trans hconf
    · obtain rfl := List.mem_singleton.mp happ
      cases hr

/-- The new release is in place and runs. -/
structure Switched (new : ManagedFile → Content) (h : Host) : Prop where
  opened : Opened new h
  app : h.app = .running (new .composeEnv).release

theorem keeps_switched : R.setting.Keeps (Switched new) :=
  fun s s' hl hs => ⟨keeps_opened s s' hl hs.opened,
    ((Host.Lives.within hl).app (by decide)).trans hs.app⟩

theorem triple_verify :
    Triple R.setting (fun h => Armed F old h ∧ Opened new h ∧ Linked h) (tool .verify)
      (Ends (fun _ h => Armed F old h ∧ Switched new h ∧ Linked h)
        (fun _ h => Armed F old h ∧ Linked h)) := by
  refine (triple_reading rfl (keeps_armed.and (keeps_opened.and keeps_linked))
    (fun _ => keeps_armed.and (keeps_switched.and keeps_linked)) (fun h a hp hr => ?_)).errors
    (fun _ h hp => ⟨hp.1, hp.2.2⟩)
  refine ⟨hp.1, ⟨hp.2.1, ?_⟩, hp.2.2⟩
  obtain ⟨ch, hw⟩ := hr.ok_works.resolve_right id
  cases happ : h.app with
  | running r => rw [hp.2.1.app r (by rw [happ]; rfl)]
  | restarting r | down => simp [Tool.works, happ, App.status] at hw

/-- The record may be removed by a call that raises. -/
def Regime.Late (R : Regime F old) : Prop :=
  ∃ (h h' : Host) (e : PyError), R.answer h (.tool .unlinkRecord) (.error e) h' ∧
    h.unlinked = false ∧ h'.unlinked = true

/-- The commit point. -/
theorem triple_unlinkRecord :
    Triple R.setting (fun h => Armed F old h ∧ Switched new h ∧ Linked h) (tool .unlinkRecord)
      (Ends (fun _ h => Switched new h ∧ h.unlinked = true)
        (fun _ h => Armed F old h ∨ (h.unlinked = true ∧ R.Late))) := by
  have hmark : R.setting.Keeps (fun h => h.unlinked = true) :=
    keeps_of_within (fun _ _ hw hu => (hw.unlinked (by decide)).trans hu)
  refine Regime.tool (Setting.Keeps.ends (fun _ => keeps_switched.and hmark)
    (fun _ s s' hl hp => hp.imp (fun ha => ha.lives hl) (fun hu => ⟨hmark s s' hl hu.1, hu.2⟩)))
    (fun h r h' hp hr => ?_)
  obtain ⟨ha, hs, hlinked⟩ := hp
  obtain ⟨⟨d, rec, hd, hrec, -⟩, -⟩ := id ha
  have hhas : d.has .record = true := by simp [RollbackDir.has, hrec]
  cases r with
  | ok a =>
    obtain ⟨ch, hw⟩ := hr.ok_works.resolve_right id
    simp only [Tool.works, hd, if_pos hhas] at hw
    obtain rfl := (Prod.mk.inj hw).2
    exact ⟨Or.inl rfl, ⟨⟨hs.opened.files, hs.opened.db, hs.opened.app⟩, hs.app⟩, rfl⟩
  | error e =>
    rcases hr.leaves with rfl | ⟨ch, rfl⟩ | ⟨b, hslip⟩ | hb
    · exact ⟨Or.inr (Or.inr ha), Or.inl ha⟩
    · have hu : (Tool.works ch h .unlinkRecord).2.unlinked = true := by
        simp only [Tool.works, hd, if_pos hhas]
      exact ⟨Or.inl hu, Or.inr ⟨hu, h, _, e, hr.answer, hlinked, hu⟩⟩
    · exact hslip.elim
    · exact hb.elim

/-- The part of an update after its snapshot is recorded. -/
theorem triple_applying (own : Rendering) (bundle : Bundle) (state cfg : Content) :
    Triple R.setting
      (fun h => Armed F old h ∧ Switching (renewed own bundle state cfg "") [] h)
      (applying own bundle state cfg)
      (Ends (fun _ h => ∃ generation,
          Switched (renewed own bundle state cfg generation) h ∧ h.unlinked = true)
        (fun _ h => Armed F old h ∨ (h.unlinked = true ∧ R.Late))) := by
  have harmed : ∀ {α : Type} {P : Host → Prop} {Q : α → Host → Prop} {p : Py α} (step : String),
      Triple R.setting P p (Ends Q (fun _ h => Armed F old h ∧ Linked h)) →
      Triple R.setting P (during step p)
        (Ends Q (fun _ h => Armed F old h ∨ (h.unlinked = true ∧ R.Late))) :=
    fun step hp => triple_during step (hp.errors (fun _ _ ha => Or.inl ha.1))
  refine Triple.seq (harmed _ (triple_switch own bundle state cfg)) (fun _ => ?_)
  refine Triple.exist (fun generation => keeps_armed.and keeps_switching) (fun generation => ?_)
  refine Triple.seq (harmed _ (triple_converge own bundle state cfg generation)) (fun _ => ?_)
  refine Triple.seq (harmed _ (triple_look rfl _)) (fun _ => ?_)
  refine Triple.seq (harmed _ triple_composeUp) (fun _ => ?_)
  refine Triple.seq (harmed _ triple_verify) (fun _ => ?_)
  refine (triple_during _ triple_unlinkRecord).post (fun r h hr => ?_)
  cases r with
  | ok a => exact ⟨generation, hr⟩
  | error e => exact hr

/-! ### The commit mark -/

theorem Regime.Uses.mono {K K' : ∀ ⦃α : Type⦄, Tool α → Prop} {α : Type} {p : Prog Step α}
    (h : ∀ ⦃α : Type⦄ (t : Tool α), K t → K' t) (hp : Uses K p) : Uses K' p := by
  refine Prog.Calls.mono (fun β c hc => ?_) hp
  cases c with
  | tool t => exact h t hc
  | shield on => exact hc

theorem uses_takeSnapshot (source target : Release) :
    Uses (fun _ t => .mark ∉ t.touches) (takeSnapshot source target) := by
  refine Uses.seq (Uses.tool (by simp [Tool.touches])) (fun _ => ?_)
  refine Uses.seq (Prog.Calls.forEach (fun f => Uses.tool (by simp [Tool.touches]))) (fun _ => ?_)
  refine Uses.seq (Uses.tool (by simp [Tool.touches])) (fun _ => ?_)
  refine Uses.seq (Uses.tool (by simp [Tool.touches])) (fun _ => ?_)
  exact Uses.tool (by simp [Tool.touches])

theorem uses_during {K : ∀ ⦃α : Type⦄, Tool α → Prop} {α : Type} {p : Py α} (step : String)
    (hp : Uses K p) : Uses K (during step p) := by
  refine Prog.Calls.bind hp (fun r => ?_)
  cases r <;> trivial

theorem uses_preparing (bundle : Bundle) (drain wasRunning : Bool) (state : Content) :
    Uses (fun _ t => .mark ∉ t.touches) (preparing bundle drain wasRunning state) := by
  refine Prog.Calls.bindAction (uses_during _ ?_) (fun _ => ?_)
  · refine Uses.mono (fun α t ht => ?_) (uses_pause drain wasRunning)
    obtain ⟨-, hdir⟩ := Bool.and_eq_true_iff.mp ht
    cases t <;> simp [Tool.touches] at hdir ⊢
  · refine Prog.Calls.bindAction (uses_during _ (Uses.tool (by simp [Tool.touches]))) (fun _ => ?_)
    exact uses_during _ (uses_takeSnapshot _ _)

theorem triple_preparing_linked (new : ManagedFile → Content)
    (hF : (F .composeEnv).release = old) (bundle : Bundle) (drain wasRunning : Bool)
    (state : Content) :
    Triple R.setting (fun h => Untouched F old h ∧ Linked h)
      (preparing bundle drain wasRunning state)
      (Ends (fun _ h => Armed F old h ∧ Switching new [] h) (fun _ => Safely F old)) := by
  refine ((triple_preparing hF bundle drain wasRunning state).frameAction keeps_linked
    (fun β c hc s r s' _ hl ha => ?_) (uses_preparing bundle drain wasRunning state)).post
    (fun r h hr => ?_)
  · cases c with
    | tool t => exact ((R.any ha).leaves.within.unlinked hc).trans hl
    | shield on => exact hc.elim
  · cases r with
    | ok a => exact ⟨hr.1.1, hr.1.2.db.isWhole, fun f hf => (nomatch hf), hr.2⟩
    | error e => exact hr

end Pgfy.Deploy
