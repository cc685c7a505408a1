import Pgfy.Deploy.Installer
import Pgfy.Framework.Triple

/-! # How far an update has got

    What holds of the host on the way through an update and its rollback. It is
    `Home` as long as the installed release is in place, and `Armed` while
    everything a rollback needs is. As long as no update has committed, one of
    the two holds in every state (`Standing`), which is what the update's
    handler and the command `rollback-update` rest on.
-/

namespace Pgfy.Deploy

open Program

/-! ### Databases of a release -/

theorem Content.Same.refl (c : Content) : c.Same c := ⟨rfl, rfl⟩

/-- A sound database nobody but the release has written to. -/
def Copy.Of (old : Release) (c : Copy) : Prop := ∃ m, c = .whole m ∧ ∀ w ∈ m.writers, w = old

namespace Copy.Of

variable {old : Release} {c : Copy}

theorem isWhole (h : c.Of old) : c.isWhole = true := by
  obtain ⟨m, rfl, -⟩ := h
  rfl

theorem setMaintenance (h : c.Of old) (on : Bool) : (c.setMaintenance on).Of old := by
  obtain ⟨m, rfl, hm⟩ := h
  exact ⟨_, rfl, hm⟩

theorem written (h : c.Of old) {rs : List Release} (hrs : ∀ r ∈ rs, r = old) :
    (c.written rs).Of old := by
  obtain ⟨m, rfl, hm⟩ := h
  refine ⟨_, rfl, fun w hw => ?_⟩
  rcases List.mem_append.mp hw with hw | hw
  · exact hrs w hw
  · exact hm w hw

end Copy.Of

/-! ### Home and Armed -/

/-- A record the installer can follow. -/
structure Record.Good (r : Record) : Prop where
  format : r.format = 1
  files : r.files = updateFiles

section Assertions

variable (F : ManagedFile → Content) (old : Release)

/-- The installed release is in place: its files, apart from the generation, and
    its database; no other release runs. -/
structure Home (h : Host) : Prop where
  files : ∀ f, (h.files f).Same (F f)
  db : h.db.Of old
  app : ∀ r, h.app.release = some r → r = old

/-- The record, the saved files and the snapshot are all there. -/
def Armed (h : Host) : Prop :=
  (∃ d r, h.dir = some d ∧ d.record = some r ∧ r.Good ∧
    ∀ f, ∃ c, d.saved f = some c ∧ c.Same (F f)) ∧ h.snapshot.Of old

/-- What is left beside a record, if there is one, is sound. -/
def Loose (h : Host) : Prop :=
  h.record = none ∨ ∃ d r, h.dir = some d ∧ d.record = some r ∧ r.Good ∧
    (∀ f c, d.saved f = some c → c.Same (F f)) ∧ (h.snapshot = .absent ∨ h.snapshot.Of old)

/-- The installed release is in place, with nothing unsound beside it. -/
def Safely (h : Host) : Prop := Home F old h ∧ Loose F old h

/-- Where an update that has not committed, and a rollback, may have got to. -/
def Standing (h : Host) : Prop := h.unlinked = true ∨ Safely F old h ∨ Armed F old h

end Assertions

variable {F : ManagedFile → Content} {old : Release} {h h' : Host}

theorem Armed.loose (ha : Armed F old h) : Loose F old h := by
  obtain ⟨⟨d, r, hd, hr, hgood, hsaved⟩, hs⟩ := ha
  refine Or.inr ⟨d, r, hd, hr, hgood, fun f c hc => ?_, Or.inr hs⟩
  obtain ⟨c', hc', hsame⟩ := hsaved f
  exact Option.some.inj (hc'.symm.trans hc) ▸ hsame

theorem Armed.record (ha : Armed F old h) : ∃ r, h.record = some r ∧ r.Good := by
  obtain ⟨⟨d, r, hd, hr, hgood, -⟩, -⟩ := ha
  exact ⟨r, by rw [Host.record, hd]; exact hr, hgood⟩

theorem Home.configured (hF : (F .composeEnv).release = old) (hh : Home F old h) :
    h.configured = old :=
  (hh.files .composeEnv).1.trans hF

/-! ### What the application does by itself -/

theorem Host.Lives.within (hl : h.Lives h') : h.Within [.db] h' := by
  obtain ⟨rs, -, rfl⟩ := hl
  constructor <;> simp

theorem Home.lives (hh : Home F old h) (hl : h.Lives h') : Home F old h' := by
  obtain ⟨rs, hrs, rfl⟩ := hl
  exact ⟨hh.files, hh.db.written (fun r hr => hh.app r (hrs r hr)), hh.app⟩

theorem Armed.within {ps : List Part} (ha : Armed F old h) (hw : h.Within ps h')
    (hdir : .dir ∉ ps) (hsnap : .snapshot ∉ ps) : Armed F old h' := by
  unfold Armed
  rw [hw.dir hdir, hw.snapshot hsnap]
  exact ha

theorem Loose.within {ps : List Part} (hl : Loose F old h) (hw : h.Within ps h')
    (hdir : .dir ∉ ps) (hsnap : .snapshot ∉ ps) : Loose F old h' := by
  unfold Loose Host.record
  rw [hw.dir hdir, hw.snapshot hsnap]
  exact hl

theorem Safely.lives (hs : Safely F old h) (hl : h.Lives h') : Safely F old h' :=
  ⟨hs.1.lives hl, hs.2.within hl.within (by decide) (by decide)⟩

theorem Armed.lives (ha : Armed F old h) (hl : h.Lives h') : Armed F old h' :=
  ha.within hl.within (by decide) (by decide)

theorem Standing.lives (hs : Standing F old h) (hl : h.Lives h') : Standing F old h' := by
  rcases hs with hu | hs | ha
  · exact Or.inl ((hl.within.unlinked (by decide)).trans hu)
  · exact Or.inr (Or.inl (hs.lives hl))
  · exact Or.inr (Or.inr (ha.lives hl))

/-! ### What tools keep -/

theorem Home.within {ps : List Part} (hh : Home F old h) (hw : h.Within ps h')
    (hfiles : ∀ f, .file f ∉ ps) (hdb : .db ∉ ps) (happ : .app ∉ ps) : Home F old h' := by
  refine ⟨fun f => ?_, ?_, ?_⟩
  · rw [hw.files f (hfiles f)]
    exact hh.files f
  · rw [hw.db hdb]
    exact hh.db
  · rw [hw.app happ]
    exact hh.app

/-- A start of the application, however it goes. -/
theorem Home.started (hF : (F .composeEnv).release = old) (hh : Home F old h) {app : App}
    (happ : ∀ r, app.release = some r → r = old) :
    Home F old { h.started with app := app } := by
  refine ⟨hh.files, ?_, happ⟩
  refine hh.db.written (fun r hr => ?_)
  obtain rfl := List.mem_singleton.mp hr
  exact hh.configured hF

/-- Tools that neither write files nor restore the database. -/
def Tool.mild {α : Type} : Tool α → Bool
  | write _ _ => false
  | storeRestore => false
  | _ => true

theorem Home.works {α : Type} {t : Tool α} (hF : (F .composeEnv).release = old)
    (hh : Home F old h) (ht : t.mild = true) (ch : Chance) : Home F old (t.works ch h).2 := by
  have hconf := hh.configured hF
  have hw := t.works_within ch h
  cases t
  case write => cases ht
  case storeRestore => cases ht
  case maintenance on =>
    simp only [Tool.works]
    split
    · exact ⟨hh.files, hh.db.setMaintenance on, hh.app⟩
    · exact hh
  case maintenanceOff =>
    simp only [Tool.works]
    split
    · exact ⟨hh.files, hh.db.setMaintenance false, hh.app⟩
    · exact hh
  case maintenanceAside =>
    refine ⟨hh.files, (hh.db.setMaintenance true).written (fun r hr => ?_), hh.app⟩
    exact (List.mem_singleton.mp hr).trans hconf
  case composeStop => exact ⟨hh.files, hh.db, fun _ hr => by cases hr⟩
  case composeStopAnyway => exact ⟨hh.files, hh.db, fun _ hr => by cases hr⟩
  case composeUp =>
    refine hh.started hF (fun r hr => ?_)
    rw [if_pos hh.db.isWhole] at hr
    exact (Option.some.inj hr).symm.trans hconf
  case composeUpAnyway =>
    refine hh.started hF (fun r hr => ?_)
    rw [if_pos hh.db.isWhole] at hr
    exact (Option.some.inj hr).symm.trans hconf
  all_goals refine hh.within hw ?_ ?_ ?_ <;> simp [Tool.touches]

theorem Home.slips {α : Type} {t : Tool α} {a : α} (hF : (F .composeEnv).release = old)
    (hh : Home F old h) (hs : t.Slips h a h') : Home F old h' := by
  have hstart : ∀ app ∈ [App.restarting h.configured, App.down],
      Home F old { h.started with app := app } := by
    intro app happ
    refine hh.started hF (fun r hr => ?_)
    rcases List.mem_cons.mp happ with rfl | happ
    · exact (Option.some.inj hr).symm.trans (hh.configured hF)
    · obtain rfl := List.mem_singleton.mp happ
      cases hr
  cases t
  case inTime => exact hs.2 ▸ hh
  case maintenanceOff => exact hs.2 ▸ hh
  case composeStop => exact Eq.symm hs ▸ hh
  case composeStopAnyway => exact Eq.symm hs ▸ hh
  case composeUp =>
    obtain ⟨app, happ, rfl⟩ := hs
    exact hstart app happ
  case composeUpAnyway =>
    rcases hs with rfl | ⟨app, happ, rfl⟩
    · exact hh
    · exact hstart app happ
  all_goals exact hs.elim

theorem Home.breaks {α : Type} {t : Tool α} (hF : (F .composeEnv).release = old)
    (hh : Home F old h) (ht : t.mild = true) (hb : t.Breaks h h') : Home F old h' := by
  have hw := hb.within
  cases t
  case composeUp => exact Eq.symm hb ▸ ⟨hh.files, hh.db, fun _ hr => nomatch hr⟩
  case composeUpAnyway => exact Eq.symm hb ▸ ⟨hh.files, hh.db, fun _ hr => nomatch hr⟩
  case maintenanceAside =>
    obtain rfl := hb
    refine ⟨hh.files, hh.db.written (fun r hr => ?_), hh.app⟩
    exact (List.mem_singleton.mp hr).trans (hh.configured hF)
  case storeRestore => cases ht
  case storeSnapshot => exact hh.within hw (by simp [Tool.touches]) (by decide) (by decide)
  case save f => refine hh.within hw ?_ ?_ ?_ <;> simp [Tool.touches]
  all_goals exact hb.elim

theorem Home.leaves {α : Type} {t : Tool α} (hF : (F .composeEnv).release = old)
    (hh : Home F old h) (ht : t.mild = true) (hl : t.Leaves h h') : Home F old h' := by
  rcases hl with rfl | ⟨ch, rfl⟩ | ⟨a, hs⟩ | hb
  · exact hh
  · exact hh.works hF ht ch
  · exact hh.slips hF hs
  · exact hh.breaks hF ht hb

/-- Tools that only take away what is left of an update. -/
def Tool.gentle {α : Type} : Tool α → Bool
  | makeDir => false
  | save _ => false
  | writeRecord _ => false
  | unlinkRecord => false
  | storeSnapshot => false
  | t => t.mild

theorem Tool.mild_of_gentle {α : Type} {t : Tool α} (ht : t.gentle = true) : t.mild = true := by
  cases t <;> first | rfl | cases ht

theorem Loose.without (hl : Loose F old h) {d : RollbackDir} (hd : h.dir = some d) (e : Entry) :
    Loose F old { h with dir := some (d.without e) } := by
  rcases hl with hnone | ⟨d', r, hd', hr, hgood, hsaved, hsnap⟩
  · left
    rw [Host.record, hd] at hnone
    cases e with
    | record => rfl
    | saved f => exact hnone
  · obtain rfl := Option.some.inj (hd.symm.trans hd')
    cases e with
    | record => exact Or.inl rfl
    | saved f =>
      refine Or.inr ⟨_, r, rfl, hr, hgood, fun g c hc => ?_, hsnap⟩
      by_cases hg : g = f
      · subst hg
        simp [RollbackDir.without] at hc
      · exact hsaved g c (by simpa [RollbackDir.without, hg] using hc)

theorem Loose.works {α : Type} {t : Tool α} (hl : Loose F old h) (ht : t.gentle = true)
    (ch : Chance) : Loose F old (t.works ch h).2 := by
  have hw := t.works_within ch h
  cases t
  case makeDir => cases ht
  case save => cases ht
  case writeRecord => cases ht
  case unlinkRecord => cases ht
  case storeSnapshot => cases ht
  case remove e =>
    simp only [Tool.works]
    split
    · exact hl
    · next d hd => exact hl.without hd e
  case removeDir =>
    simp only [Tool.works]
    split
    · exact hl
    · split
      · exact hl
      · exact Or.inl rfl
  case discardSnapshot =>
    rcases hl with hnone | ⟨d, r, hd, hr, hgood, hsaved, -⟩
    · exact Or.inl hnone
    · exact Or.inr ⟨d, r, hd, hr, hgood, hsaved, Or.inl rfl⟩
  all_goals refine hl.within hw ?_ ?_ <;> simp [Tool.touches]

theorem Loose.leaves {α : Type} {t : Tool α} (hl : Loose F old h) (ht : t.gentle = true)
    (hv : t.Leaves h h') : Loose F old h' := by
  rcases hv with rfl | ⟨ch, rfl⟩ | ⟨a, hs⟩ | hb
  · exact hl
  · exact hl.works ht ch
  · have hw := hs.within
    cases t <;> first | exact hs.elim | exact hl.within hw (by decide) (by decide)
  · have hw := hb.within
    cases t <;> first | cases ht; done | exact hb.elim | exact hl.within hw (by decide) (by decide)

theorem Safely.leaves {α : Type} {t : Tool α} (hF : (F .composeEnv).release = old)
    (hs : Safely F old h) (ht : t.gentle = true) (hv : t.Leaves h h') : Safely F old h' :=
  ⟨hs.1.leaves hF (Tool.mild_of_gentle ht) hv, hs.2.leaves ht hv⟩

/-! ### Regimes -/

/-- The circumstances a part of an update runs under: how its tools answer,
    whether they are known to work (`good`), and what is kept track of. -/
structure Regime (F : ManagedFile → Content) (old : Release) where
  answer : Answers Host Step
  inv : Host → Prop
  good : Prop
  any : ∀ {β : Type} {h h' : Host} {c : Step β} {r : β}, answer h c r h' → anyReplies h c r h'
  works : good → ∀ {α : Type} {t : Tool α} {h h' : Host} {r : Except PyError α}, inv h →
    answer h (.tool t) r h' → ∃ ch, t.works ch h = (r, h')
  keeps : ∀ {h h' : Host}, inv h → h'.shield = h.shield → Standing F old h' → inv h'

namespace Regime

def setting (R : Regime F old) : Setting Host Step where
  answer := R.answer
  inv := R.inv
  rely := Host.Lives
  guar _ _ := True
  rely_refl := Host.Lives.refl
  rely_trans := Host.Lives.trans

/-- An answer of a tool. -/
structure Replies (R : Regime F old) {α : Type} (t : Tool α) (h : Host) (r : Except PyError α)
    (h' : Host) : Prop where
  any : anyReplies h (.tool t) r h'
  works : R.good → ∃ ch, t.works ch h = (r, h')
  answer : R.answer h (.tool t) r h'

theorem Replies.leaves {R : Regime F old} {α : Type} {t : Tool α} {r : Except PyError α}
    (hr : R.Replies t h r h') : t.Leaves h h' :=
  hr.any.leaves

variable {R : Regime F old} {α β : Type} {P : Host → Prop}

/-- The rule for a tool. -/
theorem tool {t : Tool α} {Q : Except PyError α → Host → Prop} (hQ : ∀ r, R.setting.Keeps (Q r))
    (h : ∀ h r h', P h → R.Replies t h r h' → Standing F old h' ∧ Q r h') :
    Triple R.setting P (Deploy.tool t) Q := by
  refine Triple.ask hQ (fun s r s' hi hp ha => ?_)
  have hr : R.Replies t s r s' := ⟨R.any ha, fun hgood => R.works hgood hi ha, ha⟩
  obtain ⟨hs, hq⟩ := h s r s' hp hr
  exact ⟨R.keeps hi hr.leaves.within.shield hs, trivial, hq⟩

/-- A program of tools of one kind. -/
def Uses (K : ∀ ⦃α : Type⦄, Tool α → Prop) (p : Prog Step β) : Prop :=
  p.Calls (fun _ c => match c with
    | .tool t => K t
    | .shield _ => False)

theorem of_uses {K : ∀ ⦃α : Type⦄, Tool α → Prop} {p : Prog Step β} (hP : R.setting.Keeps P)
    (hs : ∀ h, P h → Standing F old h)
    (hK : ∀ ⦃α : Type⦄ (t : Tool α), K t → ∀ h h', P h → t.Leaves h h' → P h') (hp : Uses K p) :
    Triple R.setting P p (fun _ => P) := by
  refine Triple.of_calls hP (fun γ c hc s r s' hi hps ha => ?_) hp
  cases c with
  | tool t =>
    have hl := (R.any ha).leaves
    have hp' := hK t hc s s' hps hl
    exact ⟨R.keeps hi hl.within.shield (hs s' hp'), trivial, hp'⟩
  | shield on => exact hc.elim

/-- Gentle tools leave the installed release in place. -/
theorem safely_kept (hF : (F .composeEnv).release = old) {p : Prog Step β}
    (hp : Uses (fun _ t => t.gentle = true) p) :
    Triple R.setting (Safely F old) p (fun _ => Safely F old) :=
  of_uses (fun _ _ hl hs => hs.lives hl) (fun _ hs => Or.inr (Or.inl hs))
    (fun _ _ ht _ _ hs hv => hs.leaves hF ht hv) hp

end Regime

end Pgfy.Deploy
