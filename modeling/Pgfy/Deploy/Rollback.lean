import Pgfy.Deploy.Standing

/-! # The rollback

    What `rollback_update` does from each state an interrupted update, or an
    earlier rollback, can leave. With tools that may fail it leaves such a state
    again; with tools that work it finishes, unless the record is still there
    and the snapshot or a saved file is not.
-/

namespace Pgfy.Deploy

open Program Regime

variable {F : ManagedFile → Content} {old : Release} {h h' : Host} {R : Regime F old}

/-! ### Rules for the installer's programs -/

theorem triple_catching {α : Type} {S : Setting Host Step} {P : Host → Prop}
    {Q : α → Host → Prop} {E E' : PyError → Host → Prop} {catches : PyError → Bool} {p : Py α}
    {handler : PyError → Py α} (hp : Triple S P p (Ends Q E))
    (hhandler : ∀ e, catches e = true → Triple S (E e) (handler e) (Ends Q E'))
    (hE : ∀ e h, catches e = false → E e h → E' e h) :
    Triple S P (catching catches p handler) (Ends Q E') := by
  refine Triple.lift hp (fun r => ?_)
  cases r with
  | ok a => exact Triple.done (fun _ hq => hq)
  | error e =>
    by_cases he : catches e = true
    · simp only [if_pos he]
      exact hhandler e he
    · simp only [if_neg he]
      exact Triple.fail (fun s hs => hE e s (Bool.eq_false_iff.mpr he) hs)

/-- A tool that is sure to work, or that leaves what a failure may leave. -/
theorem triple_tool {α : Type} {t : Tool α} {P : Host → Prop} {Q : α → Host → Prop}
    {E : Host → Prop} (hQ : ∀ a, R.setting.Keeps (Q a)) (hE : R.setting.Keeps E)
    (hs : ∀ h, E h → Standing F old h)
    (sure : ∀ h, P h → ∀ ch, ∃ a, (t.works ch h).1 = .ok a)
    (leaves : ∀ h h', P h → t.Leaves h h' → E h')
    (ok : ∀ h a h', P h → R.Replies t h (.ok a) h' → Q a h') :
    Triple R.setting P (tool t) (Ends Q (fun _ h => E h ∧ ¬ R.good)) := by
  refine Regime.tool (fun r => Setting.Keeps.ends hQ (fun e => ?_) r) (fun s r s' hp hr => ?_)
  · exact hE.and (fun _ _ _ hg => hg)
  · have hE' := leaves s s' hp hr.leaves
    refine ⟨hs s' hE', ?_⟩
    cases r with
    | ok a => exact ok s a s' hp hr
    | error e =>
      refine ⟨hE', fun hgood => ?_⟩
      obtain ⟨ch, hw⟩ := hr.works hgood
      obtain ⟨a, ha⟩ := sure s hp ch
      rw [hw] at ha
      cases ha

/-- A tool where all tools work. -/
theorem triple_sure {α : Type} {t : Tool α} {P : Host → Prop} {Q : Except PyError α → Host → Prop}
    (hgood : R.good) (hQ : ∀ r, R.setting.Keeps (Q r))
    (works : ∀ h, P h → ∀ ch, Standing F old (t.works ch h).2 ∧
      Q (t.works ch h).1 (t.works ch h).2) :
    Triple R.setting P (tool t) Q := by
  refine Regime.tool hQ (fun s r s' hp hr => ?_)
  obtain ⟨ch, hw⟩ := hr.works hgood
  have h := works s hp ch
  rw [hw] at h
  exact h

/-- What is not about the database is kept by the application. -/
theorem keeps_of_within {P : Host → Prop} (hP : ∀ h h', h.Within [.db] h' → P h → P h') :
    R.setting.Keeps P :=
  fun s s' hl hp => hP s s' (Host.Lives.within hl) hp

theorem keeps_armed : R.setting.Keeps (Armed F old) := fun _ _ hl ha => ha.lives hl

theorem keeps_safely : R.setting.Keeps (Safely F old) := fun _ _ hl hs => hs.lives hl

theorem keeps_const (φ : Prop) : R.setting.Keeps (fun _ => φ) := fun _ _ _ hφ => hφ

/-! ### Restoring files and database -/

/-- The files are those of the installed release again, apart from some. -/
def SameBut (F : ManagedFile → Content) (rest : List ManagedFile) (h : Host) : Prop :=
  ∀ f, f ∉ rest → (h.files f).Same (F f)

theorem keeps_sameBut {rest : List ManagedFile} : R.setting.Keeps (SameBut F rest) := by
  refine keeps_of_within (fun h h' hw hs f hf => ?_)
  rw [hw.files f (by simp)]
  exact hs f hf

theorem SameBut.within {rest : List ManagedFile} {ps : List Part} (hs : SameBut F rest h)
    (hw : h.Within ps h') (hps : ∀ f, .file f ∉ ps) : SameBut F rest h' := by
  intro f hf
  rw [hw.files f (hps f)]
  exact hs f hf

theorem SameBut.write {rest : List ManagedFile} {f : ManagedFile} {c : Content}
    (hs : SameBut F (f :: rest) h) (hc : c.Same (F f)) (hw : h.Within [.file f] h')
    (hf : h'.files f = c) : SameBut F rest h' := by
  intro g hg
  by_cases hgf : g = f
  · rw [hgf, hf]
    exact hc
  · rw [hw.files g (by simpa using hgf)]
    exact hs g (by simp [hgf, hg])

/-- Tools that leave alone what a rollback needs. -/
def Tool.sparing {α : Type} (t : Tool α) : Bool :=
  t.touches.all (fun p => decide (p ≠ .dir ∧ p ≠ .snapshot))

theorem Armed.sparing {α : Type} {t : Tool α} (ha : Armed F old h) (ht : t.sparing = true)
    (hl : t.Leaves h h') : Armed F old h' := by
  have hall := List.all_eq_true.mp ht
  exact ha.within hl.within (fun hm => (of_decide_eq_true (hall _ hm)).1 rfl)
    (fun hm => (of_decide_eq_true (hall _ hm)).2 rfl)

/-- A tool on the way to the restored state. -/
theorem triple_restoring {α : Type} {t : Tool α} {P : Host → Prop} {Q : α → Host → Prop}
    (ht : t.sparing = true) (hQ : ∀ a, R.setting.Keeps (Q a))
    (sure : ∀ h, Armed F old h → P h → ∀ ch, ∃ a, (t.works ch h).1 = .ok a)
    (ok : ∀ h a h', Armed F old h → P h → R.Replies t h (.ok a) h' → Q a h') :
    Triple R.setting (fun h => Armed F old h ∧ P h) (tool t)
      (Ends (fun a h => Armed F old h ∧ Q a h) (fun _ h => Armed F old h ∧ ¬ R.good)) := by
  have hkept : ∀ h h', Armed F old h ∧ P h → t.Leaves h h' → Armed F old h' :=
    fun h h' hp hl => hp.1.sparing ht hl
  refine triple_tool (fun a => keeps_armed.and (hQ a)) keeps_armed (fun _ ha => Or.inr (Or.inr ha))
    (fun h hp => sure h hp.1 hp.2) hkept (fun h a h' hp hr => ?_)
  exact ⟨hkept h h' hp hr.leaves, ok h a h' hp.1 hp.2 hr⟩

theorem Regime.Replies.ok_works {α : Type} {t : Tool α} {a : α} (hr : R.Replies t h (.ok a) h') :
    (∃ ch, t.works ch h = (.ok a, h')) ∨ t.Slips h a h' := by
  rcases hr.any with hw | ⟨b, hb, hs⟩ | ⟨e, he, -⟩
  · exact Or.inl hw
  · cases hb
    exact Or.inr hs
  · cases he

theorem Regime.Replies.record_good {r : Record} (hr : R.Replies .readRecord h (.ok r) h')
    (hgood : ∃ r', h.record = some r' ∧ r'.Good) : r.Good := by
  obtain ⟨r', hr', hgood⟩ := hgood
  obtain ⟨ch, hw⟩ := hr.ok_works.resolve_right id
  simp only [Tool.works, hr', Prod.mk.injEq, Except.ok.injEq] at hw
  exact hw.1 ▸ hgood

theorem triple_restoreFile (f : ManagedFile) (rest : List ManagedFile) :
    Triple R.setting (fun h => Armed F old h ∧ SameBut F (f :: rest) h) (restoreFile f)
      (Ends (fun _ h => Armed F old h ∧ SameBut F rest h)
        (fun _ h => Armed F old h ∧ ¬ R.good)) := by
  refine Triple.seq (Q := fun c h => Armed F old h ∧ c.Same (F f) ∧ SameBut F (f :: rest) h)
    (triple_restoring rfl
      (fun c => (keeps_const _).and keeps_sameBut) ?_ ?_) (fun c => ?_)
  · rintro h ⟨⟨d, r, hd, -, -, hsaved⟩, -⟩ - ch
    obtain ⟨c, hc, -⟩ := hsaved f
    exact ⟨c, by simp [Tool.works, hd, hc]⟩
  · rintro h c h' ⟨⟨d, r, hd, -, -, hsaved⟩, -⟩ hs hr
    refine ⟨?_, hs.within hr.leaves.within (by simp [Tool.touches])⟩
    obtain ⟨ch, hw⟩ := hr.ok_works.resolve_right id
    obtain ⟨c', hc', hsame⟩ := hsaved f
    have heq : c' = c := by
      simp only [Tool.works, hd, Option.bind_some, hc', Prod.mk.injEq, Except.ok.injEq] at hw
      exact hw.1
    exact heq ▸ hsame
  · refine triple_restoring rfl
      (fun _ => keeps_sameBut) (fun h _ _ ch => ⟨(), rfl⟩) ?_
    rintro h a h' - ⟨hc, hs⟩ hr
    refine hs.write hc hr.leaves.within ?_
    obtain ⟨ch, hw⟩ := hr.ok_works.resolve_right id
    rw [← (Prod.mk.inj hw).2]
    exact Function.update_self f c h.files

theorem App.status_other {app : App} (h : app.status = .other) : app = .down := by
  cases app with
  | running r => cases h
  | restarting r => cases h
  | down => rfl

theorem keeps_down : R.setting.Keeps (fun h => h.app = .down) :=
  keeps_of_within (fun _ _ hw hd => (hw.app (by decide)).trans hd)

theorem keeps_down_of_good (φ : Prop) :
    R.setting.Keeps (fun h => R.good → φ ∧ h.app = .down) :=
  keeps_of_within (fun _ _ hw hd hg => ⟨(hd hg).1, (hw.app (by decide)).trans (hd hg).2⟩)

/-- Waiting for the application to stop, with what is known of the files. -/
theorem triple_awaitStopped (failure : String) (n : ℕ) :
    Triple R.setting (fun h => Armed F old h ∧ SameBut F [] h ∧ (R.good → 0 < n ∧ h.app = .down))
      (awaitStopped failure n)
      (Ends (fun _ h => Armed F old h ∧ SameBut F [] h ∧ h.app = .down)
        (fun _ h => Armed F old h ∧ ¬ R.good)) := by
  induction n with
  | zero => exact Triple.fail (fun h hp => ⟨hp.1, fun hg => absurd (hp.2.2 hg).1 (by simp)⟩)
  | succ n ih =>
    refine Triple.seq (Q := fun soon h => Armed F old h ∧ SameBut F [] h ∧
      (R.good → soon = true ∧ h.app = .down))
      (triple_restoring rfl (fun soon => keeps_sameBut.and (keeps_down_of_good _))
        (fun h _ _ ch => ⟨true, rfl⟩) ?_) (fun soon => ?_)
    · rintro h soon h' - ⟨hs, hd⟩ hr
      refine ⟨hs.within hr.leaves.within (by simp [Tool.touches]), fun hg => ?_⟩
      obtain ⟨ch, hw⟩ := hr.works hg
      cases hw
      exact ⟨rfl, (hd hg).2⟩
    · cases soon with
      | false => exact Triple.fail (fun h hp => ⟨hp.1, fun hg => by cases (hp.2.2 hg).1⟩)
      | true =>
        refine Triple.seq (Q := fun status h => Armed F old h ∧ SameBut F [] h ∧
          status = h.app.status ∧ (R.good → True ∧ h.app = .down))
          (triple_restoring rfl
            (fun status => keeps_sameBut.and ((keeps_of_within (fun _ _ hw hd => ?_)).and
              (keeps_down_of_good _))) (fun h _ _ ch => ⟨_, rfl⟩) ?_) (fun status => ?_)
        · rw [hw.app (by decide)]
          exact hd
        · rintro h status h' - ⟨hs, hd⟩ hr
          have happ : h'.app = h.app := hr.leaves.within.app (by simp [Tool.touches])
          refine ⟨hs.within hr.leaves.within (by simp [Tool.touches]), ?_, fun hg => ?_⟩
          · obtain ⟨ch, hw⟩ := hr.ok_works.resolve_right id
            cases hw
            rfl
          · exact ⟨trivial, happ.trans (hd hg).2⟩
        · by_cases hstatus : status = .other
          · simp only [if_pos hstatus]
            refine Triple.done (fun h hp => ⟨hp.1, hp.2.1, ?_⟩)
            exact App.status_other (hp.2.2.1.symm.trans hstatus)
          · simp only [if_neg hstatus]
            refine ih.pre (fun h hp => ⟨hp.1, hp.2.1, fun hg => ?_⟩)
            refine absurd (hp.2.2.1.trans ?_) hstatus
            rw [(hp.2.2.2 hg).2]
            rfl

theorem triple_stopApplication (failure : String) :
    Triple R.setting (fun h => Armed F old h ∧ SameBut F [] h) (stopApplication failure)
      (Ends (fun _ h => Armed F old h ∧ SameBut F [] h ∧ h.app = .down)
        (fun _ h => Armed F old h ∧ ¬ R.good)) := by
  refine Triple.seq (triple_restoring rfl
    (fun _ => keeps_sameBut.and (keeps_down_of_good _)) (fun h _ _ ch => ⟨(), rfl⟩) ?_)
    (fun _ => triple_awaitStopped failure 60)
  · rintro h a h' - hs hr
    refine ⟨hs.within hr.leaves.within (by simp [Tool.touches]), fun hg => ⟨by decide, ?_⟩⟩
    obtain ⟨ch, hw⟩ := hr.works hg
    rw [← (Prod.mk.inj hw).2]

/-- The files and the database are restored, or a tool has failed and all that
    is needed to try again is still there. -/
theorem triple_restoreAll {r : Record} (hr : r.Good) :
    Triple R.setting (Armed F old) (restoreAll r)
      (Ends (fun _ h => Armed F old h ∧ Home F old h)
        (fun _ h => Armed F old h ∧ ¬ R.good)) := by
  refine Triple.seq (Q := fun _ h => Armed F old h ∧ True)
    ((triple_restoring (P := fun _ => True) rfl (fun _ => keeps_const True)
    (fun h _ _ ch => ⟨_, rfl⟩) (fun _ _ _ _ _ _ => trivial)).pre (fun h ha => ⟨ha, trivial⟩))
    (fun _ => ?_)
  refine Triple.seq (Q := fun _ h => Armed F old h ∧ SameBut F r.files h)
    (triple_restoring rfl (fun _ => keeps_sameBut)
      (fun h _ _ ch => ⟨_, rfl⟩) (fun _ _ _ _ _ _ f hf => ?_)) (fun _ => ?_)
  · rw [hr.files] at hf
    exact absurd (mem_updateFiles f) hf
  refine Triple.seq (Triple.forEach (L := fun rest h => Armed F old h ∧ SameBut F rest h)
    (fun f rest => triple_restoreFile f rest) r.files) (fun _ => ?_)
  refine Triple.seq (Q := fun _ h => Armed F old h ∧ SameBut F [] h)
    (triple_restoring rfl (fun _ => keeps_sameBut)
      (fun h _ _ ch => ⟨_, rfl⟩)
      (fun _ _ _ _ hs hr => hs.within hr.leaves.within (by simp [Tool.touches]))) (fun _ => ?_)
  refine Triple.seq (triple_stopApplication stillRunning) (fun _ => ?_)
  have hdown : ∀ {α : Type} {t : Tool α} {h h' : Host} {r : Except PyError α},
      R.Replies t h r h' → .app ∉ t.touches → h.app = .down → h'.app = .down :=
    fun hr ht hd => (hr.leaves.within.app ht).trans hd
  refine Triple.seq (Q := fun cfg h => Armed F old h ∧ cfg.Same (F .installJson) ∧
    SameBut F [] h ∧ h.app = .down)
    (triple_restoring rfl (fun cfg => (keeps_const _).and (keeps_sameBut.and keeps_down))
      (fun h _ _ ch => ⟨_, rfl⟩) ?_) (fun cfg => ?_)
  · rintro h cfg h' - ⟨hs, hd⟩ hr
    refine ⟨?_, hs.within hr.leaves.within (by simp [Tool.touches]),
      hdown hr (by simp [Tool.touches]) hd⟩
    obtain ⟨ch, hw⟩ := hr.ok_works.resolve_right id
    cases hw
    exact hs .installJson (by simp)
  refine Triple.seq (Q := fun _ h => Armed F old h ∧ cfg.Same (F .installJson) ∧
    SameBut F [] h ∧ h.app = .down)
    (triple_restoring rfl (fun _ => (keeps_const _).and (keeps_sameBut.and keeps_down))
      (fun h _ _ ch => ⟨_, rfl⟩) ?_) (fun generation => ?_)
  · rintro h _ h' - ⟨hc, hs, hd⟩ hr
    exact ⟨hc, hs.within hr.leaves.within (by simp [Tool.touches]),
      hdown hr (by simp [Tool.touches]) hd⟩
  refine Triple.seq (Q := fun _ h => Armed F old h ∧ SameBut F [] h ∧ h.app = .down)
    (triple_restoring rfl
      (fun _ => keeps_sameBut.and keeps_down) (fun h _ _ ch => ⟨_, rfl⟩) ?_) (fun _ => ?_)
  · rintro h _ h' - ⟨hc, hs, hd⟩ hr
    refine ⟨SameBut.write (fun f hf => hs f (by simp)) ?_ hr.leaves.within rfl,
      hdown hr (by simp [Tool.touches]) hd⟩
    obtain ⟨ch, hw⟩ := hr.ok_works.resolve_right id
    rw [← (Prod.mk.inj hw).2]
    show (Function.update h.files .installJson _ .installJson).Same _
    rw [Function.update_self]
    exact hc
  · refine triple_restoring rfl
      (fun _ _ _ hl hh => hh.lives hl) ?_ ?_
    · rintro h ha - ch
      exact ⟨(), by simp only [Tool.works, if_pos ha.2.isWhole]⟩
    · rintro h _ h' ha ⟨hs, hd⟩ hr
      obtain ⟨ch, hw⟩ := hr.ok_works.resolve_right id
      simp only [Tool.works, if_pos ha.2.isWhole] at hw
      obtain rfl := (Prod.mk.inj hw).2
      exact ⟨fun f => hs f (by simp), ha.2, fun r hr => by rw [hd] at hr; cases hr⟩

/-! ### Programs of gentle tools -/

namespace Regime.Uses

variable {K : ∀ ⦃α : Type⦄, Tool α → Prop} {α β : Type}

theorem tool {t : Tool α} (ht : K t) : Uses K (Deploy.tool t) := ⟨ht, fun _ => trivial⟩

theorem seq {x : Py α} {f : α → Py β} (hx : Uses K x) (hf : ∀ a, Uses K (f a)) :
    Uses K (x.bind f) :=
  Prog.Calls.bindAction hx hf

theorem catching {catches : PyError → Bool} {p : Py α} {handler : PyError → Py α}
    (hp : Uses K p) (hh : ∀ e, Uses K (handler e)) : Uses K (catching catches p handler) := by
  refine Prog.Calls.bindAction (Prog.Calls.lift hp) (fun r => ?_)
  cases r with
  | ok a => trivial
  | error e =>
    by_cases he : catches e = true
    · simp only [if_pos he]
      exact hh e
    · simp only [if_neg he]
      trivial

theorem warnIf (hK : K Tool.say) (b : Bool) : Uses K (warnIf b) := by
  cases b with
  | true => exact tool hK
  | false => trivial

end Regime.Uses

theorem uses_rmtree : Uses (fun _ t => t.gentle = true) rmtree := by
  refine Uses.seq (Uses.tool rfl) (fun es => ?_)
  refine Uses.seq (Prog.Calls.forEach (fun e => Uses.tool rfl)) (fun _ => ?_)
  exact Uses.tool rfl

theorem uses_rmtreeAnyway : Uses (fun _ t => t.gentle = true) rmtreeAnyway := by
  refine Uses.seq (Uses.catching (Uses.tool rfl) (fun _ => trivial)) (fun es => ?_)
  refine Uses.seq (Prog.Calls.forEach (fun e => Uses.catching (Uses.tool rfl) (fun _ => trivial)))
    (fun _ => ?_)
  exact Uses.catching (Uses.tool rfl) (fun _ => trivial)

theorem uses_awaitRunning (n : ℕ) : Uses (fun _ t => t.gentle = true) (awaitRunning n) := by
  induction n with
  | zero => trivial
  | succ n ih =>
    refine Uses.seq (Uses.tool rfl) (fun soon => ?_)
    cases soon with
    | false => trivial
    | true =>
      refine Uses.seq (Uses.tool rfl) (fun status => ?_)
      by_cases hs : status = .running
      · simp only [if_pos hs]
        trivial
      · simp only [if_neg hs]
        exact ih

theorem uses_unquiesce (wasRunning : Bool) :
    Uses (fun _ t => t.gentle = true) (unquiesce wasRunning) := by
  refine Uses.seq (Uses.tool rfl) (fun _ => ?_)
  refine Uses.seq (uses_awaitRunning 60) (fun _ => ?_)
  refine Uses.seq (Uses.tool rfl) (fun resumed => ?_)
  refine Uses.seq (Uses.warnIf rfl _) (fun _ => ?_)
  exact Uses.warnIf rfl _

theorem uses_restart (r : Record) : Uses (fun _ t => t.gentle = true) (restart r) := by
  refine Uses.seq (Uses.tool rfl) (fun _ => ?_)
  refine Uses.seq (Uses.catching (Uses.tool rfl) (fun _ => trivial)) (fun _ => ?_)
  refine Uses.seq (Uses.tool rfl) (fun resumed => ?_)
  refine Uses.seq (Uses.warnIf rfl _) (fun _ => ?_)
  refine Uses.seq (Uses.tool rfl) (fun _ => ?_)
  exact uses_rmtree

theorem uses_rollbackUnrecorded : Uses (fun _ t => t.gentle = true) rollbackUnrecorded := by
  refine Uses.seq (Uses.tool rfl) (fun _ => ?_)
  refine Uses.seq (uses_unquiesce true) (fun _ => ?_)
  refine Uses.seq uses_rmtreeAnyway (fun _ => ?_)
  trivial

theorem uses_abandon (wasRunning : Bool) (step : String) (e : PyError) :
    Uses (fun _ t => t.gentle = true) (abandon wasRunning step e) := by
  refine Uses.seq uses_rmtreeAnyway (fun _ => ?_)
  refine Uses.seq (Uses.catching (Uses.tool rfl) (fun _ => trivial)) (fun _ => ?_)
  refine Uses.seq (uses_unquiesce wasRunning) (fun _ => ?_)
  cases e.isInstall with
  | true => trivial
  | false => trivial

/-! ### The rollback -/

theorem triple_rollbackRecorded {Q E : Host → Prop} (hE : ∀ h, Armed F old h → ¬ R.good → E h)
    (hrestart : ∀ r, Triple R.setting (fun h => Armed F old h ∧ Home F old h) (restart r)
      (Ends (fun _ => Q) (fun _ => E))) (reason : Option String) :
    Triple R.setting (Armed F old) (rollbackRecorded reason)
      (Ends (fun _ => Q) (fun _ => E)) := by
  refine Triple.seq (Q := fun r h => Armed F old h ∧ r.Good)
    (((triple_restoring (P := fun _ => True) rfl (fun r => keeps_const _) ?_ ?_).pre
      (fun h ha => ⟨ha, trivial⟩)).errors (fun e h hp => hE h hp.1 hp.2)) (fun r => ?_)
  · rintro h ha - ch
    obtain ⟨r, hr, -⟩ := ha.record
    exact ⟨r, by simp [Tool.works, hr]⟩
  · exact fun h r h' ha _ hr => hr.record_good ha.record
  refine Triple.given (fun hgood => ?_)
  refine Triple.seq (Q := fun _ h => Armed F old h ∧ True) ?_ (fun _ => ?_)
  · rw [raiseIf, if_neg (by simp [hgood.format])]
    exact Triple.done (fun h ha => ⟨ha, trivial⟩)
  refine Triple.seq (Q := fun _ h => Armed F old h ∧ True)
    (triple_catching (triple_restoring rfl (fun _ => keeps_const True) ?_ ?_) ?_ ?_)
    (fun _ => ?_)
  · rintro h ha - ch
    exact ⟨(), by simp [Tool.works, ha.2.isWhole]⟩
  · exact fun _ _ _ _ _ _ => trivial
  · exact fun e _ => Triple.fail (fun h hp => hE h hp.1 hp.2)
  · exact fun e h _ hp => hE h hp.1 hp.2
  refine Triple.seq (((triple_restoreAll hgood).pre (fun _ hp => hp.1)).errors
    (fun e h hp => hE h hp.1 hp.2)) (fun _ => ?_)
  exact Triple.seq (hrestart r) (fun _ => Triple.done (fun _ hq => hq))

/-! ### A rollback that cannot be finished -/

/-- The installed release is in place and the record is there, but the snapshot
    or a saved file is not. -/
def Stuck (F : ManagedFile → Content) (old : Release) (h : Host) : Prop :=
  Home F old h ∧ ∃ d r, h.dir = some d ∧ d.record = some r ∧ r.Good ∧
    (∀ f c, d.saved f = some c → c.Same (F f)) ∧ (h.snapshot = .absent ∨ h.snapshot.Of old) ∧
    (h.snapshot = .absent ∨ ∃ f, d.saved f = none)

theorem Stuck.safely (hs : Stuck F old h) : Safely F old h := by
  obtain ⟨hh, d, r, hd, hr, hgood, hsaved, hsnap, -⟩ := hs
  exact ⟨hh, Or.inr ⟨d, r, hd, hr, hgood, hsaved, hsnap⟩⟩

theorem Stuck.record (hs : Stuck F old h) : ∃ r, h.record = some r ∧ r.Good := by
  obtain ⟨-, d, r, hd, hr, hgood, -⟩ := hs
  exact ⟨r, by rw [Host.record, hd]; exact hr, hgood⟩

theorem Safely.cases (hs : Safely F old h) :
    h.record = none ∨ Armed F old h ∨ Stuck F old h := by
  obtain ⟨hh, hnone | ⟨d, r, hd, hr, hgood, hsaved, hsnap⟩⟩ := hs
  · exact Or.inl hnone
  · by_cases hall : ∀ f, ∃ c, d.saved f = some c
    · rcases hsnap with habsent | hof
      · exact Or.inr (Or.inr ⟨hh, d, r, hd, hr, hgood, hsaved, Or.inl habsent, Or.inl habsent⟩)
      · refine Or.inr (Or.inl ⟨⟨d, r, hd, hr, hgood, fun f => ?_⟩, hof⟩)
        obtain ⟨c, hc⟩ := hall f
        exact ⟨c, hc, hsaved f c hc⟩
    · refine Or.inr (Or.inr ⟨hh, d, r, hd, hr, hgood, hsaved, hsnap, Or.inr ?_⟩)
      obtain ⟨f, hf⟩ := not_forall.mp hall
      exact ⟨f, Option.eq_none_iff_forall_ne_some.mpr (fun c hc => hf ⟨c, hc⟩)⟩

theorem Stuck.home (hs : Stuck F old h) (hh : Home F old h') (hdir : h'.dir = h.dir)
    (hsnap : h'.snapshot = h.snapshot) : Stuck F old h' := by
  refine ⟨hh, ?_⟩
  rw [hdir, hsnap]
  exact hs.2

theorem Stuck.lives (hs : Stuck F old h) (hl : h.Lives h') : Stuck F old h' :=
  hs.home (hs.1.lives hl) (hl.within.dir (by decide)) (hl.within.snapshot (by decide))

theorem Tool.sparing_dir {α : Type} {t : Tool α} (ht : t.sparing = true) : .dir ∉ t.touches :=
  fun hm => (of_decide_eq_true (List.all_eq_true.mp ht _ hm)).1 rfl

theorem Tool.sparing_snapshot {α : Type} {t : Tool α} (ht : t.sparing = true) :
    .snapshot ∉ t.touches :=
  fun hm => (of_decide_eq_true (List.all_eq_true.mp ht _ hm)).2 rfl

/-- A tool of a rollback that cannot be finished. -/
theorem triple_stuck {α : Type} {t : Tool α} {P : Host → Prop} {Q : α → Host → Prop}
    (ht : t.sparing = true) (hhome : ∀ h h', Home F old h → P h → t.Leaves h h' → Home F old h')
    (hQ : ∀ a, R.setting.Keeps (Q a))
    (ok : ∀ h a h', Stuck F old h → P h → R.Replies t h (.ok a) h' → Q a h') :
    Triple R.setting (fun h => Stuck F old h ∧ P h) (tool t)
      (Ends (fun a h => Stuck F old h ∧ Q a h) (fun _ => Stuck F old)) := by
  have hkeeps : R.setting.Keeps (Stuck F old) := fun _ _ hl hs => hs.lives hl
  refine Regime.tool (fun r => Setting.Keeps.ends (fun a => hkeeps.and (hQ a)) (fun _ => hkeeps) r)
    (fun h r h' hp hr => ?_)
  have hs : Stuck F old h' := hp.1.home (hhome h h' hp.1.1 hp.2 hr.leaves)
    (hr.leaves.within.dir (Tool.sparing_dir ht))
    (hr.leaves.within.snapshot (Tool.sparing_snapshot ht))
  refine ⟨Or.inr (Or.inl hs.safely), ?_⟩
  cases r with
  | ok a => exact ⟨hs, ok h a h' hp.1 hp.2 hr⟩
  | error e => exact hs

/-- One of some saved files is missing. -/
def Missing (fs : List ManagedFile) (h : Host) : Prop :=
  ∀ d, h.dir = some d → ∃ f ∈ fs, d.saved f = none

theorem keeps_missing {fs : List ManagedFile} : R.setting.Keeps (Missing fs) :=
  keeps_of_within (fun _ _ hw hm d hd => hm d ((hw.dir (by decide)).symm.trans hd))

theorem Missing.dir {fs : List ManagedFile} (hm : Missing fs h) (hdir : h'.dir = h.dir) :
    Missing fs h' :=
  fun d hd => hm d (hdir.symm.trans hd)

theorem triple_stuck_restoreFile (f : ManagedFile) (rest : List ManagedFile) :
    Triple R.setting (fun h => Stuck F old h ∧ Missing (f :: rest) h) (restoreFile f)
      (Ends (fun _ h => Stuck F old h ∧ Missing rest h) (fun _ => Stuck F old)) := by
  refine Triple.seq (Q := fun c h => Stuck F old h ∧ c.Same (F f) ∧ Missing rest h)
    (triple_stuck rfl ?_ (fun c => (keeps_const _).and keeps_missing) ?_) (fun c => ?_)
  · exact fun h h' hh _ hl => hh.within hl.within (by simp [Tool.touches]) (by simp [Tool.touches])
      (by simp [Tool.touches])
  · intro h c h' hs hm hr
    obtain ⟨-, d, r, hd, -, -, hsaved, -⟩ := hs
    obtain ⟨ch, hw⟩ := hr.ok_works.resolve_right id
    cases hc : d.saved f with
    | none => simp [Tool.works, hd, hc] at hw
    | some c' =>
      simp only [Tool.works, hd, Option.bind_some, hc, Prod.mk.injEq, Except.ok.injEq] at hw
      obtain ⟨rfl, rfl⟩ := hw
      refine ⟨hsaved f c' hc, fun d' hd' => ?_⟩
      obtain ⟨g, hg, hnone⟩ := hm d' hd'
      rcases List.mem_cons.mp hg with rfl | hg
      · obtain rfl := Option.some.inj (hd.symm.trans hd')
        rw [hc] at hnone
        cases hnone
      · exact ⟨g, hg, hnone⟩
  · refine triple_stuck rfl ?_ (fun _ => keeps_missing) ?_
    · intro h h' hh hp hl
      refine ⟨fun g => ?_, ?_, ?_⟩
      · rcases hl with rfl | ⟨ch, rfl⟩ | ⟨a, hslip⟩ | hb
        · exact hh.files g
        · by_cases hg : g = f
          · subst hg
            show (Function.update h.files g c g).Same (F g)
            rw [Function.update_self]
            exact hp.1
          · show (Function.update h.files f c g).Same (F g)
            rw [Function.update_of_ne hg]
            exact hh.files g
        · exact hslip.elim
        · exact hb.elim
      · rw [hl.within.db (by simp [Tool.touches])]
        exact hh.db
      · rw [hl.within.app (by simp [Tool.touches])]
        exact hh.app
    · exact fun h a h' _ hp hr => hp.2.dir (hr.leaves.within.dir (by simp [Tool.touches]))

theorem triple_stuck_restoreAll (hF : (F .composeEnv).release = old) {r : Record} (hr : r.Good) :
    Triple R.setting (fun h => Stuck F old h ∧ Missing updateFiles h) (restoreAll r)
      (Ends (fun _ _ => False) (fun _ => Stuck F old)) := by
  have hmild : ∀ {α : Type} (t : Tool α), t.mild = true → ∀ h h', Home F old h →
      Missing updateFiles h → t.Leaves h h' → Home F old h' :=
    fun t ht h h' hh _ hl => hh.leaves hF ht hl
  refine Triple.seq (Q := fun _ h => Stuck F old h ∧ Missing updateFiles h)
    (triple_stuck rfl (hmild _ rfl) (fun _ => keeps_missing) ?_) (fun _ => ?_)
  · exact fun h a h' _ hm hr => hm.dir (hr.leaves.within.dir (by simp [Tool.touches]))
  refine Triple.seq (Q := fun _ h => Stuck F old h ∧ Missing r.files h)
    (triple_stuck rfl (hmild _ rfl) (fun _ => keeps_missing) ?_) (fun _ => ?_)
  · rw [hr.files]
    exact fun h a h' _ hm hr => hm.dir (hr.leaves.within.dir (by simp [Tool.touches]))
  refine Triple.seq (Triple.forEach (L := fun rest h => Stuck F old h ∧ Missing rest h)
    (fun f rest => triple_stuck_restoreFile f rest) r.files) (fun _ => ?_)
  -- nothing is missing at the end of the loop, so it does not get there
  refine Triple.vacuous (fun h hp => ?_)
  obtain ⟨⟨-, d, -, hd, -⟩, hm⟩ := hp
  obtain ⟨f, hf, -⟩ := hm d hd
  cases hf

/-- Such a rollback fails, whether or not its tools work. -/
theorem triple_stuck_rollbackRecorded (hF : (F .composeEnv).release = old)
    (reason : Option String) :
    Triple R.setting (Stuck F old) (rollbackRecorded reason)
      (Ends (fun _ _ => False) (fun _ => Stuck F old)) := by
  have hmild : ∀ {α : Type} (t : Tool α), t.mild = true → ∀ h h', Home F old h → True →
      t.Leaves h h' → Home F old h' := fun t ht h h' hh _ hl => hh.leaves hF ht hl
  refine Triple.seq (Q := fun r h => Stuck F old h ∧ r.Good)
    ((triple_stuck (P := fun _ => True) rfl (hmild _ rfl) (fun _ => keeps_const _) ?_).pre
      (fun h hs => ⟨hs, trivial⟩)) (fun r => ?_)
  · exact fun h r h' hs _ hr => hr.record_good hs.record
  refine Triple.given (fun hgood => ?_)
  refine Triple.seq (Q := fun _ h => Stuck F old h ∧ True) ?_ (fun _ => ?_)
  · rw [raiseIf, if_neg (by simp [hgood.format])]
    exact Triple.done (fun h hs => ⟨hs, trivial⟩)
  refine Triple.seq (Q := fun _ h => Stuck F old h ∧ Missing updateFiles h)
    (triple_catching (triple_stuck rfl (hmild _ rfl) (fun _ => keeps_missing) ?_)
      (fun e _ => Triple.fail (fun h hs => hs)) (fun e h _ hs => hs)) (fun _ => ?_)
  · intro h a h' hs _ hr d hd
    obtain ⟨-, d', r', hd', -, -, -, -, habsent | ⟨f, hf⟩⟩ := hs
    · obtain ⟨ch, hw⟩ := hr.ok_works.resolve_right id
      simp [Tool.works, habsent, Copy.isWhole] at hw
    · have hdir := hr.leaves.within.dir (by simp [Tool.touches])
      obtain rfl := Option.some.inj (hd'.symm.trans (hdir.symm.trans hd))
      exact ⟨f, mem_updateFiles f, hf⟩
  exact Triple.seq (triple_stuck_restoreAll hF hgood) (fun _ => Triple.vacuous (fun _ hp => hp))

/-! ### From any state -/

theorem keeps_stuck : R.setting.Keeps (Stuck F old) := fun _ _ hl hs => hs.lives hl

/-- The first question of a rollback. -/
theorem triple_recordExists :
    Triple R.setting (fun h => Safely F old h ∨ Armed F old h) (tool .recordExists)
      (Ends (fun b h => if b then Armed F old h ∨ Stuck F old h
          else Safely F old h ∧ h.record = none)
        (fun _ h => (Safely F old h ∨ Armed F old h) ∧ ¬ R.good)) := by
  have hlives : R.setting.Keeps (fun h => Safely F old h ∨ Armed F old h) :=
    fun _ _ hl hp => hp.imp (fun hs => hs.lives hl) (fun ha => ha.lives hl)
  refine triple_tool (fun b => ?_) hlives (fun _ hp => Or.inr hp) (fun h _ ch => ⟨_, rfl⟩)
    (fun h h' hp hl => ?_) (fun h b h' hp hr => ?_)
  · cases b with
    | true => exact fun _ _ hl hp => hp.imp (fun ha => ha.lives hl) (fun hs => hs.lives hl)
    | false =>
      refine keeps_safely.and (keeps_of_within (fun _ _ hw hr => ?_))
      rw [Host.record, hw.dir (by decide)]
      exact hr
  · rcases hl with rfl | ⟨ch, rfl⟩ | ⟨a, hslip⟩ | hb
    · exact hp
    · exact hp
    · exact hslip.elim
    · exact hb.elim
  · obtain ⟨ch, hw⟩ := hr.ok_works.resolve_right id
    cases hw
    rcases hp with hs | ha
    · cases hrec : h.record with
      | none => exact ⟨hs, hrec ▸ rfl⟩
      | some r =>
        rcases hs.cases with hnone | harmed
        · rw [hrec] at hnone
          cases hnone
        · exact harmed
    · obtain ⟨r, hr, -⟩ := ha.record
      rw [hr]
      exact Or.inl ha

/-- Whatever fails, a rollback leaves a state another can start from. -/
theorem triple_rollbackUpdate (hF : (F .composeEnv).release = old) (reason : Option String) :
    Triple R.setting (fun h => Safely F old h ∨ Armed F old h) (rollbackUpdate reason)
      (Ends (fun _ h => Safely F old h ∨ Armed F old h)
        (fun _ h => Safely F old h ∨ Armed F old h)) := by
  refine Triple.seq (triple_recordExists.errors (fun e h hp => hp.1)) (fun recorded => ?_)
  cases recorded with
  | true =>
    refine Triple.or keeps_armed keeps_stuck ?_ ?_
    · refine triple_rollbackRecorded (fun h ha _ => Or.inr ha) (fun r => ?_) reason
      exact ((safely_kept hF (uses_restart r)).pre (fun h hp => ⟨hp.2, hp.1.loose⟩)).ends
        (fun _ _ hs => Or.inl hs) (fun _ _ hs => Or.inl hs)
    · refine (triple_stuck_rollbackRecorded hF reason).post (fun r h hr => ?_)
      cases r with
      | ok a => exact hr.elim
      | error e => exact Or.inl hr.safely
  | false =>
    exact ((safely_kept hF uses_rollbackUnrecorded).pre (fun h hp => hp.1)).ends
      (fun _ _ hs => Or.inl hs) (fun _ _ hs => Or.inl hs)

/-! ### The rollback when tools work -/

/-- The previous release is back: its files, its database with changes allowed,
    the application; nothing is left of the update. -/
structure RolledBack (F : ManagedFile → Content) (old : Release) (h : Host) : Prop where
  files : ∀ f, (h.files f).Same (F f)
  db : ∃ m, h.db = .whole m ∧ m.maintenance = false ∧ ∀ w ∈ m.writers, w = old
  app : h.app = .running old
  dir : h.dir = none

/-- The installed release runs. -/
def Up (F : ManagedFile → Content) (old : Release) (h : Host) : Prop :=
  Safely F old h ∧ h.app = .running old

/-- It runs with changes allowed. -/
def Resumed (F : ManagedFile → Content) (old : Release) (h : Host) : Prop :=
  Up F old h ∧ ∀ m, h.db = .whole m → m.maintenance = false

theorem keeps_up : R.setting.Keeps (Up F old) :=
  keeps_safely.and (keeps_of_within (fun _ _ hw ha => (hw.app (by decide)).trans ha))

theorem keeps_resumed : R.setting.Keeps (Resumed F old) := by
  refine keeps_up.and (fun s s' hl hm m hm' => ?_)
  obtain ⟨rs, -, rfl⟩ := hl
  cases hdb : s.db with
  | absent | damaged => simp [hdb, Copy.written, Copy.map] at hm'
  | whole m0 =>
    simp only [hdb, Copy.written, Copy.map, Copy.whole.injEq] at hm'
    rw [← hm']
    exact hm m0 hdb

theorem Safely.started (hF : (F .composeEnv).release = old) (hs : Safely F old h) :
    Up F old h.started := by
  have hl : (Tool.composeUp).Leaves h h.started := Or.inr (Or.inl ⟨{}, rfl⟩)
  refine ⟨hs.leaves hF rfl hl, ?_⟩
  unfold Host.started
  simp only [if_pos hs.1.db.isWhole, hs.1.configured hF]

section Sure

variable (hgood : R.good) (hF : (F .composeEnv).release = old)
include hgood hF

theorem sure_up {t : Tool Unit} (ht : ∀ ch h, t.works ch h = (.ok (), h.started)) :
    Triple R.setting (Safely F old) (tool t)
      (Ends (fun _ => Up F old) (fun _ _ => False)) := by
  refine triple_sure hgood (Setting.Keeps.ends (fun _ => keeps_up) (fun _ => keeps_const _))
    (fun h hs ch => ?_)
  rw [ht]
  exact ⟨Or.inr (Or.inl (hs.started hF).1), hs.started hF⟩

omit hF in
theorem sure_verify (handler : PyError → Py Unit) :
    Triple R.setting (Up F old) (catching PyError.isInstall (tool .verify) handler)
      (Ends (fun _ => Up F old) (fun _ _ => False)) := by
  refine triple_catching (E := fun _ _ => False) (triple_sure hgood
    (Setting.Keeps.ends (fun _ => keeps_up) (fun _ => keeps_const _)) (fun h hs ch => ?_))
    (fun e _ => Triple.vacuous (fun _ hf => hf)) (fun _ _ _ hf => hf)
  have hw : Tool.works ch h .verify = (.ok (), h) := by simp [Tool.works, hs.2, App.status]
  rw [hw]
  exact ⟨Or.inr (Or.inl hs.1), hs⟩

omit hF in
theorem sure_awaitRunning (n : ℕ) :
    Triple R.setting (Up F old) (awaitRunning n)
      (Ends (fun _ => Up F old) (fun _ _ => False)) := by
  have hkeeps : ∀ {α : Type} (r : Except PyError α),
      R.setting.Keeps (Ends (fun _ => Up F old) (fun _ _ => False) r) :=
    fun r => Setting.Keeps.ends (fun _ => keeps_up) (fun _ => keeps_const _) r
  induction n with
  | zero => exact Triple.done (fun _ hs => hs)
  | succ n ih =>
    refine Triple.seq (triple_sure hgood hkeeps (fun h hs ch => ⟨Or.inr (Or.inl hs.1), hs⟩))
      (fun soon => ?_)
    cases soon with
    | false => exact Triple.done (fun _ hs => hs)
    | true =>
      refine Triple.seq (triple_sure hgood hkeeps (fun h hs ch => ⟨Or.inr (Or.inl hs.1), hs⟩))
        (fun status => ?_)
      by_cases hstatus : status = .running
      · simp only [if_pos hstatus]
        exact Triple.done (fun _ hs => hs)
      · simp only [if_neg hstatus]
        exact ih

theorem sure_maintenanceOff :
    Triple R.setting (Up F old) (tool .maintenanceOff)
      (Ends (fun b h => Resumed F old h ∧ b = true) (fun _ _ => False)) := by
  refine triple_sure hgood (Setting.Keeps.ends (fun _ => keeps_resumed.and (keeps_const _))
    (fun _ => keeps_const _)) (fun h hs ch => ?_)
  have hw : Tool.works ch h .maintenanceOff =
      (.ok true, { h with db := h.db.setMaintenance false }) := by
    simp [Tool.works, hs.2, App.status]
  have hsafely := hs.1.leaves (t := Tool.maintenanceOff) hF rfl (Or.inr (Or.inl ⟨ch, rfl⟩))
  rw [hw] at hsafely ⊢
  refine ⟨Or.inr (Or.inl hsafely), ⟨⟨hsafely, hs.2⟩, fun m hm => ?_⟩, rfl⟩
  obtain ⟨m', hm', -⟩ := hs.1.1.db
  rw [hm'] at hm
  cases hm
  rfl

theorem sure_unquiesce (wasRunning : Bool) :
    Triple R.setting (Safely F old) (unquiesce wasRunning)
      (Ends (fun _ => Resumed F old) (fun _ _ => False)) := by
  refine Triple.seq (sure_up hgood hF (fun _ _ => rfl)) (fun _ => ?_)
  refine Triple.seq (sure_awaitRunning hgood 60) (fun _ => ?_)
  refine Triple.seq (sure_maintenanceOff hgood hF) (fun resumed => ?_)
  refine Triple.given (fun hresumed => ?_)
  subst hresumed
  refine Triple.seq (Q := fun _ => Resumed F old) (Triple.done (fun _ hs => hs)) (fun _ => ?_)
  cases wasRunning with
  | true => exact Triple.done (fun _ hs => hs)
  | false =>
    exact triple_sure hgood (Setting.Keeps.ends (fun _ => keeps_resumed) (fun _ => keeps_const _))
      (fun h hs ch => ⟨Or.inr (Or.inl hs.1.1), hs⟩)

end Sure

/-! ### Removing the directory when tools work -/

/-- What is still to be removed of the directory. -/
def Remaining (es : List Entry) (h : Host) : Prop :=
  ∀ d, h.dir = some d → ∀ e, d.has e = true → e ∈ es

theorem keeps_remaining {es : List Entry} : R.setting.Keeps (Remaining es) :=
  keeps_of_within (fun _ _ hw hm d hd => hm d ((hw.dir (by decide)).symm.trans hd))

theorem RollbackDir.has_without {d : RollbackDir} {e e' : Entry}
    (h : (d.without e).has e' = true) : e' ≠ e ∧ d.has e' = true := by
  cases e with
  | record => cases e' with
    | record => cases h
    | saved f => exact ⟨by simp, h⟩
  | saved g => cases e' with
    | record => exact ⟨by simp, h⟩
    | saved f =>
      by_cases hf : f = g
      · subst hf
        simp [RollbackDir.without, RollbackDir.has] at h
      · exact ⟨by simpa using hf, by simpa [RollbackDir.without, RollbackDir.has, hf] using h⟩

/-- What holds whatever becomes of the directory, with the installed release in
    place. -/
structure Apart (R : Regime F old) (P : Host → Prop) : Prop where
  keeps : R.setting.Keeps P
  safely : ∀ h, P h → Safely F old h
  dir : ∀ h h' : Host, h.Within [.dir] h' → Safely F old h' → P h → P h'

theorem apart_safely : Apart R (Safely F old) :=
  ⟨keeps_safely, fun _ hs => hs, fun _ _ _ hs _ => hs⟩

theorem apart_resumed : Apart R (Resumed F old) := by
  refine ⟨keeps_resumed, fun _ hr => hr.1.1, fun h h' hw hs hr => ⟨⟨hs, ?_⟩, ?_⟩⟩
  · exact (hw.app (by decide)).trans hr.1.2
  · rw [hw.db (by decide)]
    exact hr.2

section Directory

variable {P : Host → Prop} (hP : Apart R P) (hF : (F .composeEnv).release = old)
include hP hF

theorem Apart.works {α : Type} {t : Tool α} (ht : t.gentle = true)
    (htouch : ∀ p ∈ t.touches, p = .dir) (hp : P h) (ch : Chance) : P (t.works ch h).2 := by
  have hl : t.Leaves h (t.works ch h).2 := Or.inr (Or.inl ⟨ch, rfl⟩)
  have hmem : ∀ p, p ≠ .dir → p ∉ t.touches := fun p hne hm => hne (htouch p hm)
  have hw := hl.within
  refine hP.dir h _ ⟨fun f _ => hw.files f (hmem _ (by simp)), fun _ => hw.db (hmem _ (by simp)),
    fun _ => hw.snapshot (hmem _ (by simp)), fun hn => absurd List.mem_cons_self hn,
    fun _ => hw.app (hmem _ (by simp)), fun _ => hw.unlinked (hmem _ (by simp)), hw.shield⟩
    ((hP.safely h hp).leaves hF ht hl) hp

omit hP hF in
theorem keeps_present (here : Prop) : R.setting.Keeps (fun h => here → h.dir ≠ none) :=
  keeps_of_within (fun _ _ hw hd hh => (hw.dir (by decide)).symm ▸ hd hh)

/-- Listing the directory, which may be known to be there. -/
theorem Apart.entries (hgood : R.good) (here : Prop) :
    Triple R.setting (fun h => P h ∧ (here → h.dir ≠ none)) (tool .entries)
      (Ends (fun es h => P h ∧ Remaining es h ∧ (here → h.dir ≠ none))
        (fun err h => (err = noSuchFile ∧ ¬ here) ∧ P h ∧ Remaining [] h)) := by
  refine triple_sure hgood (Setting.Keeps.ends
    (fun _ => hP.keeps.and (keeps_remaining.and (keeps_present here)))
    (fun _ => (keeps_const _).and (hP.keeps.and keeps_remaining))) (fun h hp ch => ?_)
  have hp' := hP.works hF (t := Tool.entries) rfl (by simp [Tool.touches]) hp.1 ch
  refine ⟨Or.inr (Or.inl (hP.safely _ hp')), ?_⟩
  cases hd : h.dir with
  | none =>
    simp only [Tool.works, hd] at hp' ⊢
    exact ⟨⟨rfl, fun hh => hp.2 hh hd⟩, hp', fun d hd' => by rw [hd] at hd'; cases hd'⟩
  | some d =>
    simp only [Tool.works, hd] at hp' ⊢
    refine ⟨hp', fun d' hd' e he => ?_, fun _ => by simp [hd]⟩
    obtain rfl := Option.some.inj (hd.symm.trans hd')
    refine List.mem_filter.mpr ⟨List.mem_dedup.mpr ?_, he⟩
    exact List.mem_append_left _ (mem_allEntries e)

/-- Removing one entry. -/
theorem Apart.remove (hgood : R.good) (here : Prop) (e : Entry) (rest : List Entry) :
    Triple R.setting (fun h => P h ∧ Remaining (e :: rest) h ∧ (here → h.dir ≠ none))
      (tool (.remove e))
      (Ends (fun _ h => P h ∧ Remaining rest h ∧ (here → h.dir ≠ none))
        (fun err h => (err = noSuchFile ∧ ¬ here) ∧ P h ∧ Remaining rest h)) := by
  refine triple_sure hgood (Setting.Keeps.ends
    (fun _ => hP.keeps.and (keeps_remaining.and (keeps_present here)))
    (fun _ => (keeps_const _).and (hP.keeps.and keeps_remaining))) (fun h hp ch => ?_)
  have hp' := hP.works hF (t := Tool.remove e) rfl (by simp [Tool.touches]) hp.1 ch
  refine ⟨Or.inr (Or.inl (hP.safely _ hp')), ?_⟩
  cases hd : h.dir with
  | none =>
    simp only [Tool.works, hd] at hp' ⊢
    exact ⟨⟨rfl, fun hh => hp.2.2 hh hd⟩, hp', fun d hd' => by rw [hd] at hd'; cases hd'⟩
  | some d =>
    simp only [Tool.works, hd] at hp' ⊢
    refine ⟨hp', fun d' hd' e' he' => ?_, fun _ => by simp⟩
    obtain rfl := Option.some.inj hd'
    obtain ⟨hne, hhas⟩ := RollbackDir.has_without he'
    exact (List.mem_cons.mp (hp.2.1 d hd e' hhas)).resolve_left hne

theorem Apart.removeDir (hgood : R.good) (here : Prop) :
    Triple R.setting (fun h => P h ∧ Remaining [] h ∧ (here → h.dir ≠ none)) (tool .removeDir)
      (Ends (fun _ h => P h ∧ h.dir = none)
        (fun err h => (err = noSuchFile ∧ ¬ here) ∧ P h ∧ h.dir = none)) := by
  have hkeeps : R.setting.Keeps (fun h => h.dir = none) :=
    keeps_of_within (fun _ _ hw hd => (hw.dir (by decide)).trans hd)
  refine triple_sure hgood (Setting.Keeps.ends (fun _ => hP.keeps.and hkeeps)
    (fun _ => (keeps_const _).and (hP.keeps.and hkeeps))) (fun h hp ch => ?_)
  have hp' := hP.works hF (t := Tool.removeDir) rfl (by simp [Tool.touches]) hp.1 ch
  refine ⟨Or.inr (Or.inl (hP.safely _ hp')), ?_⟩
  cases hd : h.dir with
  | none =>
    simp only [Tool.works, hd] at hp' ⊢
    exact ⟨⟨rfl, fun hh => hp.2.2 hh hd⟩, hp', hd⟩
  | some d =>
    have hempty : allEntries.any d.has = false := by
      rw [List.any_eq_false]
      intro e _ he
      cases hp.2.1 d hd e he
    simp only [Tool.works, hd, hempty] at hp' ⊢
    exact ⟨hp', rfl⟩

theorem Apart.rmtreeAnyway (hgood : R.good) :
    Triple R.setting P rmtreeAnyway
      (Ends (fun _ h => P h ∧ h.dir = none) (fun _ _ => False)) := by
  have hos : ∀ (e : PyError) {X Y : Prop}, e.isOs = false → (e = noSuchFile ∧ X) ∧ Y → False := by
    rintro e X Y he ⟨⟨rfl, -⟩, -⟩
    cases he
  refine Triple.seq (triple_catching
    ((hP.entries hF hgood False).pre (fun h hp => ⟨hp, False.elim⟩))
    (fun e _ => Triple.done (fun h hp => ⟨hp.2.1, hp.2.2, False.elim⟩)) (fun e h => hos e))
    (fun es => ?_)
  refine Triple.seq (Triple.forEach
    (L := fun rest h => P h ∧ Remaining rest h ∧ (False → h.dir ≠ none))
    (fun e rest => triple_catching (hP.remove hF hgood False e rest)
      (fun e _ => Triple.done (fun h hp => ⟨hp.2.1, hp.2.2, False.elim⟩)) (fun e h => hos e)) es)
    (fun _ => ?_)
  exact triple_catching (hP.removeDir hF hgood False) (fun e _ => Triple.done (fun h hp => hp.2))
    (fun e h => hos e)

theorem Apart.rmtree (hgood : R.good) :
    Triple R.setting (fun h => P h ∧ h.dir ≠ none) rmtree
      (Ends (fun _ h => P h ∧ h.dir = none) (fun _ _ => False)) := by
  refine Triple.seq (((hP.entries hF hgood True).pre (fun h hp => ⟨hp.1, fun _ => hp.2⟩)).errors
    (fun e h he => he.1.2 trivial)) (fun es => ?_)
  refine Triple.seq (Triple.forEach
    (L := fun rest h => P h ∧ Remaining rest h ∧ (True → h.dir ≠ none))
    (fun e rest => (hP.remove hF hgood True e rest).errors (fun e h he => he.1.2 trivial)) es)
    (fun _ => ?_)
  exact (hP.removeDir hF hgood True).errors (fun e h he => he.1.2 trivial)

end Directory

/-! ### The rollback when tools work, assembled -/

section Sure

variable (hgood : R.good) (hF : (F .composeEnv).release = old)
include hgood hF

omit hgood hF in
theorem Resumed.rolledBack (hr : Resumed F old h) (hd : h.dir = none) : RolledBack F old h := by
  obtain ⟨⟨hs, happ⟩, hm⟩ := hr
  obtain ⟨m, hdb, hw⟩ := hs.1.db
  exact ⟨hs.1.files, ⟨m, hdb, hm m hdb, hw⟩, happ, hd⟩

omit hgood hF in
/-- A directory stays where no tool touches it. -/
theorem frame_dir {α : Type} {P : Host → Prop} {Q : α → Host → Prop} {E : PyError → Host → Prop}
    {x : Py α} (hx : Uses (fun _ t => .dir ∉ t.touches) x)
    (h : Triple R.setting P x (Ends Q E)) :
    Triple R.setting (fun h => P h ∧ h.dir ≠ none) x
      (Ends (fun a h => Q a h ∧ h.dir ≠ none) E) := by
  refine h.frameAction ?_ (fun β c hc s r s' _ hd ha => ?_) hx
  · exact keeps_of_within (fun _ _ hw hd => (hw.dir (by decide)).symm ▸ hd)
  · cases c with
    | tool t => exact ((R.any ha).leaves.within.dir hc).symm ▸ hd
    | shield on => exact hc.elim

theorem sure_discard :
    Triple R.setting (Resumed F old) (tool .discardSnapshot)
      (Ends (fun _ => Resumed F old) (fun _ _ => False)) := by
  refine triple_sure hgood (Setting.Keeps.ends (fun _ => keeps_resumed)
    (fun _ => keeps_const _)) (fun h hr ch => ?_)
  have hs := hr.1.1.leaves (t := Tool.discardSnapshot) hF rfl (Or.inr (Or.inl ⟨ch, rfl⟩))
  exact ⟨Or.inr (Or.inl hs), ⟨hs, hr.1.2⟩, hr.2⟩

theorem sure_restart (r : Record) :
    Triple R.setting (fun h => Armed F old h ∧ Home F old h) (restart r)
      (Ends (fun _ => RolledBack F old) (fun _ _ => False)) := by
  refine Triple.pre (P := fun h => Safely F old h ∧ h.dir ≠ none) ?_ (fun h hp => ?_)
  · refine Triple.seq (frame_dir (Uses.tool (by simp [Tool.touches]))
      (sure_up hgood hF (fun _ _ => rfl))) (fun _ => ?_)
    refine Triple.seq (frame_dir (Uses.catching (Uses.tool (by simp [Tool.touches]))
      (fun _ => trivial)) (sure_verify hgood _)) (fun _ => ?_)
    refine Triple.seq (frame_dir (Uses.tool (by simp [Tool.touches]))
      (sure_maintenanceOff hgood hF)) (fun resumed => ?_)
    refine Triple.pre (P := fun h => (Resumed F old h ∧ h.dir ≠ none) ∧ resumed = true)
      (Triple.given (fun hresumed => ?_)) (fun h hp => ⟨⟨hp.1.1, hp.2⟩, hp.1.2⟩)
    subst hresumed
    refine Triple.seq (Q := fun _ h => Resumed F old h ∧ h.dir ≠ none)
      (Triple.done (fun _ hs => hs)) (fun _ => ?_)
    refine Triple.seq (frame_dir (Uses.tool (by simp [Tool.touches])) (sure_discard hgood hF))
      (fun _ => ?_)
    refine (apart_resumed.rmtree hF hgood).post (fun r h hr => ?_)
    cases r with
    | ok a => exact hr.1.rolledBack hr.2
    | error e => exact hr
  · obtain ⟨⟨d, -, hd, -⟩, -⟩ := hp.1
    exact ⟨⟨hp.2, hp.1.loose⟩, by simp [hd]⟩

theorem sure_rollbackUnrecorded :
    Triple R.setting (Safely F old) rollbackUnrecorded
      (Ends (fun _ => RolledBack F old) (fun _ _ => False)) := by
  refine Triple.seq (Q := fun _ => Safely F old) (triple_sure hgood
    (Setting.Keeps.ends (fun _ => keeps_safely) (fun _ => keeps_const _))
    (fun h hs ch => ⟨Or.inr (Or.inl hs), hs⟩)) (fun _ => ?_)
  refine Triple.seq (sure_unquiesce hgood hF true) (fun _ => ?_)
  refine Triple.seq (apart_resumed.rmtreeAnyway hF hgood) (fun _ => ?_)
  exact Triple.done (fun h hp => hp.1.rolledBack hp.2)

/-- With working tools the rollback finishes from where there is no record, or
    all that belongs to it. -/
theorem sure_rollbackUpdate (reason : Option String) :
    Triple R.setting (fun h => (Safely F old h ∧ h.record = none) ∨ Armed F old h)
      (rollbackUpdate reason) (Ends (fun _ => RolledBack F old) (fun _ _ => False)) := by
  refine Triple.seq (Q := fun b h => if b then Armed F old h else Safely F old h)
    (triple_sure hgood (Setting.Keeps.ends (fun b => ?_) (fun _ => keeps_const _))
      (fun h hp ch => ⟨?_, ?_⟩)) (fun recorded => ?_)
  · cases b with
    | true => exact keeps_armed
    | false => exact keeps_safely
  · exact Or.inr (hp.imp (fun hs => hs.1) (fun ha => ha))
  · rcases hp with ⟨hs, hr⟩ | ha
    · simp only [Tool.works, hr]
      exact hs
    · obtain ⟨r, hr, -⟩ := ha.record
      simp only [Tool.works, hr]
      exact ha
  · cases recorded with
    | true =>
      exact triple_rollbackRecorded (fun h _ hn => hn hgood) (sure_restart hgood hF) reason
    | false => exact sure_rollbackUnrecorded hgood hF

/-- It fails where the record is there without all that belongs to it. -/
theorem sure_stuck_rollbackUpdate (reason : Option String) :
    Triple R.setting (Stuck F old) (rollbackUpdate reason)
      (Ends (fun _ _ => False) (fun _ => Stuck F old)) := by
  refine Triple.seq (Q := fun recorded h => Stuck F old h ∧ recorded = true)
    (triple_sure hgood (Setting.Keeps.ends (fun _ => keeps_stuck.and (keeps_const _))
      (fun _ => keeps_stuck)) (fun h hs ch => ?_)) (fun recorded => Triple.given ?_)
  · obtain ⟨r, hr, -⟩ := hs.record
    simp only [Tool.works, hr]
    exact ⟨Or.inr (Or.inl hs.safely), hs, rfl⟩
  · rintro rfl
    exact triple_stuck_rollbackRecorded hF reason

end Sure

end Pgfy.Deploy
