import Pgfy.Framework.Triple
import Pgfy.Hba
import Pgfy.Site.State

/-! # Putting access rules in force

    `Manager.Apply` holds the lock of the rule file, so nobody else writes it
    meanwhile; but PostgreSQL loads the file whenever it is told to, by this
    call or by anyone. After an error the file is the previous one, while what is
    in force may already be what was rejected.

    Success is concluded from the load time, which is one of the session that asks
    and also moves when the rules could not be loaded. That a load time which moves
    tells of rules in force is an assumption about PostgreSQL, `LoadTimeTells`; only
    what is said of success rests on it.
-/

namespace Pgfy

open Calendar Program

/-- Any call may fail, except that what is written to the rule file is written. -/
def writesSucceed : Faults
  | _, .file (.writeRules _) => False
  | _, .file .removeRules => False
  | _, _ => True

/-- The load time moves only when the file is put in force. -/
def LoadTimeTells (s s' : Site) : Prop :=
  s'.pg.loadTime = s.pg.loadTime ∨ s'.pg.loaded = s.rules

section
variable {tells : Prop} {loads : Option (List RuleLine) → Prop} {old s s' : Site}
  {new : List RuleLine}

/-- What others do: a load puts the file in force, if it is one that `loads` lets
    through; the rest is anything. Where `tells` holds, the load time tells of it. -/
def Loading (tells : Prop) (loads : Option (List RuleLine) → Prop) (s s' : Site) : Prop :=
  s'.rules = s.rules ∧ ((s'.pg.loaded = s.rules ∧ loads s.rules) ∨ s'.pg.loaded = s.pg.loaded) ∧
    (tells → LoadTimeTells s s')

/-- The moments of replacing the rules of `old` by `new`. -/
structure Between (loads : Option (List RuleLine) → Prop) (old : Site) (new : List RuleLine)
    (s : Site) : Prop where
  file : s.rules = old.rules ∨ s.rules = some new
  loaded : s.pg.loaded = old.pg.loaded ∨
    (s.pg.loaded = old.rules ∨ s.pg.loaded = some new) ∧ loads s.pg.loaded

theorem Between.loading (h : Between loads old new s) (hm : Loading tells loads s s') :
    Between loads old new s' := by
  obtain ⟨hfile, hload, -⟩ := hm
  refine ⟨hfile ▸ h.file, ?_⟩
  rcases hload with ⟨hload, hlet⟩ | hload <;> rw [hload]
  · exact Or.inr ⟨h.file, hlet⟩
  · exact h.loaded

theorem loading_of_eq (h : s' = s) : Loading tells loads s s' :=
  h ▸ ⟨rfl, Or.inr rfl, fun _ => Or.inl rfl⟩

theorem Loading.trans {u : Site} (hst : Loading tells loads s s')
    (htu : Loading tells loads s' u) : Loading tells loads s u := by
  obtain ⟨hfile, hload, htime⟩ := hst
  obtain ⟨hfile', hload', htime'⟩ := htu
  rw [hfile] at hload'
  refine ⟨hfile'.trans hfile, ?_, fun hyes => ?_⟩
  · rcases hload' with hload' | hload'
    · exact Or.inl hload'
    · exact hload.imp (fun h => ⟨hload'.trans h.1, h.2⟩) hload'.trans
  · rcases htime' hyes with hsame | hforce
    · rcases htime hyes with hsame' | hforce
      · exact Or.inl (hsame.trans hsame')
      · exact Or.inr (hload'.elim And.left (fun h => h.trans hforce))
    · exact Or.inr (hforce.trans hfile)

end

/-- The setting of one call, by thread `i`. -/
def settlement (tells : Prop) (loads : Option (List RuleLine) → Prop) (old : Site)
    (new : List RuleLine) (i : ℕ) : Setting Site Call where
  answer := fun _ s c r s' => Site.Replies writesSucceed i c s r s'
  inv := Between loads old new
  rely := Loading tells loads
  guar := fun _ _ => True
  rely_refl := fun _ => loading_of_eq rfl
  rely_trans := Loading.trans

section
variable {tells : Prop} {loads : Option (List RuleLine) → Prop} {old : Site}
  {new : List RuleLine} {i : ℕ}

def Written (new : List RuleLine) (s : Site) : Prop := s.rules = some new

/-- The new rules are on disk and, as far as the load time tells, in force. -/
def InForce (tells : Prop) (new : List RuleLine) (s : Site) : Prop :=
  s.rules = some new ∧ (tells → s.pg.loaded = some new)

/-- The file was not loaded since the load time was `before`, or the new rules are in force. -/
def Awaiting (tells : Prop) (new : List RuleLine) (before : Instant) (s : Site) : Prop :=
  s.rules = some new ∧ (tells → s.pg.loadTime = before ∨ s.pg.loaded = some new)

theorem keeps_rules (r : Option (List RuleLine)) :
    (settlement tells loads old new i).Keeps (fun s => s.rules = r) :=
  fun _ _ hm hs => hm.1.trans hs

theorem keeps_inForce : (settlement tells loads old new i).Keeps (InForce tells new) := by
  rintro s s' ⟨hfile, hload, -⟩ ⟨hs, hforce⟩
  refine ⟨hfile.trans hs, fun hyes => ?_⟩
  exact hload.elim (fun h => h.1.trans hs) (fun h => h.trans (hforce hyes))

theorem keeps_awaiting (before : Instant) :
    (settlement tells loads old new i).Keeps (Awaiting tells new before) := by
  rintro s s' hm ⟨hs, hwait⟩
  refine ⟨hm.1.trans hs, fun hyes => ?_⟩
  rcases hwait hyes with hbefore | hforce
  · exact (hm.2.2 hyes).imp (fun h => h.trans hbefore) (fun h => h.trans hs)
  · exact Or.inr (hm.2.1.elim (fun h => h.1.trans hs) (fun h => h.trans hforce))

/-- A call that neither writes the file nor loads it. -/
theorem ask_still {β : Type} {c : Call β} {P : Site → Prop}
    (hP : (settlement tells loads old new i).Keeps P)
    (hc : ∀ {s r s'}, Site.Replies writesSucceed i c s r s' → Loading tells loads s s') :
    Triple (settlement tells loads old new i) P (Prog.ask c) (fun _ => P) :=
  .ask (fun _ => hP) (fun s _ s' hi hs ha =>
    ⟨Between.loading hi (hc ha), trivial, hP s s' (hc ha) hs⟩)

theorem confLoadTime_triple {P : Site → Prop} {Q : Instant → Site → Prop}
    (hQ : ∀ t, (settlement tells loads old new i).Keeps (Q t))
    (h : ∀ s, P s → Written new s ∧ Q s.pg.loadTime s) :
    Triple (settlement tells loads old new i) P (pg .confLoadTime)
      (Ends Q (fun _ => Written new)) := by
  refine .ask (Setting.Keeps.ends hQ (fun _ => keeps_rules _)) (fun s r s' hi hs ha => ?_)
  have hread : Site.Replies writesSucceed i (.pg .confLoadTime) s r s' := ha
  rcases hread with ⟨t, _, hrun, rfl | ⟨-, e, rfl⟩, rfl⟩ | ⟨e, rfl, -, rfl⟩
  · cases hrun
    exact ⟨hi, trivial, (h s hs).2⟩
  · cases hrun
    exact ⟨hi, trivial, (h s hs).1⟩
  · exact ⟨hi, trivial, (h _ hs).1⟩

/-- A load time read later than `before` says that the new rules were loaded. -/
theorem awaitLoad_triple (before : Instant) (n : ℕ) :
    Triple (settlement tells loads old new i) (Awaiting tells new before) (awaitLoad before n)
      (Ends (fun _ => InForce tells new) (fun _ => Written new)) := by
  induction n with
  | zero => exact .fail (fun s hs => hs.1)
  | succ n ih =>
    refine .seq (Q := fun t s => Awaiting tells new before s ∧ (before < t → InForce tells new s))
      (confLoadTime_triple (fun t => (keeps_awaiting before).and
        (fun s s' hm hs hlt => keeps_inForce s s' hm (hs hlt))) ?_) (fun t => ?_)
    · exact fun s hs => ⟨hs.1, hs, fun hlt => ⟨hs.1, fun hyes =>
        (hs.2 hyes).resolve_left (ne_of_gt hlt)⟩⟩
    · split
      · next hlt => exact .done (fun s hs => hs.2 hlt)
      · refine Triple.lift ((ask_still (c := .expired) (keeps_awaiting before) loading_of_eq).pre
          (fun s hs => hs.1)) (fun expired => ?_)
        cases expired with
        | true => exact .fail (fun s hs => hs.1)
        | false => exact ih

theorem reload_triple : Triple (settlement tells loads old new i) (Written new) reload
    (Ends (fun _ => InForce tells new) (fun _ => Written new)) := by
  refine .seq (Q := Awaiting tells new) (confLoadTime_triple keeps_awaiting
    (fun s hs => ⟨hs, hs, fun _ => Or.inl rfl⟩)) (fun before => ?_)
  refine .seq (Q := fun _ => Awaiting tells new before) ?_ (fun _ => awaitLoad_triple before 51)
  refine .ends (ask_still (c := .pg .reloadConf) (keeps_awaiting before) ?_)
    (fun _ _ hs => hs) (fun _ _ hs => hs.1)
  rintro s _ _ (⟨_, _, hrun, -, rfl⟩ | ⟨_, -, -, rfl⟩)
  · cases hrun
    exact ⟨rfl, Or.inr rfl, fun _ => Or.inl rfl⟩
  · exact loading_of_eq rfl

theorem write_triple {q : FileCall Unit} (hq : ¬ writesSucceed (.file q))
    {r : Option (List RuleLine)} (hr : r = old.rules ∨ r = some new)
    (hwrite : ∀ s, (Site.file s q).2 = { s with rules := r }) (P : Site → Prop) :
    Triple (settlement tells loads old new i) P (file q) (fun a s => s.rules = r ∧ a = .ok ()) := by
  refine .ask (fun _ => (keeps_rules r).and (fun _ _ _ ha => ha)) (fun s a s' hi _ ha => ?_)
  rcases (show Site.Replies writesSucceed i (.file q) s a s' from ha) with ⟨hok, rfl⟩ | ⟨hf, -⟩
  · rw [hwrite]
    exact ⟨⟨hr, hi.loaded⟩, trivial, rfl, hok⟩
  · exact absurd hf hq

theorem restoreRules_triple :
    Triple (settlement tells loads old new i) (Written new) (restoreRules old.rules)
    (Ends (fun _ s => s.rules = old.rules) (fun _ s => s.rules = old.rules)) := by
  unfold restoreRules
  cases hold : old.rules with
  | none =>
    refine Triple.lift (write_triple (q := .removeRules) id (Or.inl hold.symm) (fun _ => rfl) _) ?_
    exact fun _ => .done (fun s hs => hs.1)
  | some lines =>
    refine Triple.lift (write_triple (q := .writeRules lines) id (Or.inl hold.symm)
      (fun _ => rfl) _) ?_
    exact fun _ => .done (fun s hs => hs.1)

theorem applyLocked_triple (tunnelSource : String) (rules : List Rule)
    (hnew : new = render tunnelSource rules) :
    Triple (settlement tells loads old new i) (fun s => s.rules = old.rules)
      (applyLocked tunnelSource rules)
      (Ends (fun _ => InForce tells new) (fun _ s => s.rules = old.rules)) := by
  subst hnew
  refine .seq (Q := fun previous s => s.rules = old.rules ∧ previous = old.rules) ?_
    (fun previous => Triple.given (fun hprevious => ?_))
  · refine .ask (Setting.Keeps.ends (fun _ => (keeps_rules _).and (fun _ _ _ h => h))
      (fun _ => keeps_rules _)) (fun s r s' hi hs ha => ?_)
    rcases (show Site.Replies writesSucceed i (.file .readRules) s r s' from ha) with
      ⟨rfl, rfl⟩ | ⟨-, ⟨e, rfl⟩, rfl⟩
    · exact ⟨hi, trivial, hs, hs⟩
    · exact ⟨hi, trivial, hs⟩
  subst hprevious
  refine .seq (Q := fun _ => Written (render tunnelSource rules)) ?_ (fun _ => ?_)
  · refine (write_triple (q := .writeRules _) id (Or.inr rfl) (fun _ => rfl) _).post ?_
    exact fun a s hs => hs.2 ▸ hs.1
  refine Triple.lift (ask_still (c := .hbaFileErrors) (keeps_rules _) loading_of_eq) ?_
  intro answer
  cases answer with
  | error e => exact .seq restoreRules_triple (fun _ => .fail (fun s hs => hs))
  | ok problems =>
    cases problems with
    | cons problem rest => exact .seq restoreRules_triple (fun _ => .fail (fun s hs => hs))
    | nil =>
      refine Triple.lift reload_triple (fun answer => ?_)
      cases answer with
      | error e => exact .seq restoreRules_triple (fun _ => .fail (fun s hs => hs))
      | ok loaded => exact .done (fun s hs => hs)

end

/-- What holds in a run of `Apply`, up to any point of it. -/
theorem applyRules_trace {tells : Prop} {loads : Option (List RuleLine) → Prop} {old s : Site}
    {tunnelSource : String} {rules : List Rule} {i : ℕ} {o : Option (Except Err Instant)}
    (run : Trace (fun _ s c r s' => Site.Replies writesSucceed i c s r s') (Loading tells loads)
      (applyRules tunnelSource rules) old o s) :
    Between loads old (render tunnelSource rules) s ∧ ∀ r, o = some r →
      Ends (fun _ => InForce tells (render tunnelSource rules)) (fun _ s => s.rules = old.rules)
        r s := by
  have htriple : Triple (settlement tells loads old (render tunnelSource rules) i)
      (fun s => s.rules = old.rules) (applyRules tunnelSource rules)
      (Ends (fun _ => InForce tells (render tunnelSource rules))
        (fun _ s => s.rules = old.rules)) := by
    refine Triple.lift (ask_still (c := .lock .ruleFile) (keeps_rules _) ?_) (fun _ => ?_)
    · exact fun h => h.2 ▸ ⟨rfl, Or.inr rfl, fun _ => Or.inl rfl⟩
    refine Triple.lift (applyLocked_triple tunnelSource rules rfl) (fun r => ?_)
    refine Triple.lift (ask_still (c := .unlock .ruleFile) ?_ ?_) (fun _ => .ret ?_)
    · exact Setting.Keeps.ends (fun _ => keeps_inForce) (fun _ => keeps_rules _) r
    · exact fun h => (show _ = _ from h) ▸ ⟨rfl, Or.inr rfl, fun _ => Or.inl rfl⟩
    · exact fun s hs => hs
  exact Safe.trace (S := settlement tells loads old (render tunnelSource rules) i)
    (fun _ _ h => h) (fun _ _ hm hi => Between.loading hi hm) run ⟨Or.inl rfl, Or.inl rfl⟩
    (htriple.safe (keeps_rules _) rfl)

/-- However `Apply` fares, also if the process dies in it: the file is the
    previous or the new one, and in force is one of them or what was before.
    Success means that the new rules are on disk and, if the load time tells so, in
    force; an error means that the previous ones are on disk. -/
theorem apply_settles {tells : Prop} {loads : Option (List RuleLine) → Prop} {old s : Site}
    {tunnelSource : String} {rules : List Rule} {i : ℕ} {o : Option (Except Err Instant)}
    (run : Trace (fun _ s c r s' => Site.Replies writesSucceed i c s r s') (Loading tells loads)
      (applyRules tunnelSource rules) old o s) :
    Between loads old (render tunnelSource rules) s ∧
      (∀ t, o = some (.ok t) → InForce tells (render tunnelSource rules) s) ∧
      ∀ e, o = some (.error e) → s.rules = old.rules := by
  obtain ⟨hinv, hend⟩ := applyRules_trace run
  exact ⟨hinv, fun t ht => hend _ ht, fun e he => hend _ he⟩

/-- One project, reached from one address. -/
def shopRules : List Rule := [⟨"shop".toList, "shop_app".toList, ["203.0.113.7/32"]⟩]

def shopSite : Site := { config := ⟨"", .tunnel, "", ""⟩ }

/-- PostgreSQL has loaded the new file, which is still locked. -/
def shopLoaded : Site :=
  { shopSite.withLock .ruleFile (some 0) with
    rules := some (render "" shopRules)
    pg := { loaded := some (render "" shopRules), loadTime := 1 } }

theorem shop_run : Trace (fun _ s c r s' => Site.Replies writesSucceed 0 c s r s')
    (Loading True (fun _ => True)) (applyRules "" shopRules) shopSite (some (.ok 1))
    (shopLoaded.withLock .ruleFile none) := by
  refine .call (r := ()) ⟨rfl, rfl⟩ (.call (Or.inl ⟨rfl, rfl⟩) (.call (Or.inl ⟨rfl, rfl⟩)
    (.call (r := .ok []) rfl (.call (Or.inl ⟨_, _, rfl, Or.inl rfl, rfl⟩)
    (.call (Or.inl ⟨_, _, rfl, Or.inl rfl, rfl⟩)
    (.env (show Loading True (fun _ => True) _ shopLoaded from ?load)
      (.call (Or.inl ⟨_, _, rfl, Or.inl rfl, rfl⟩) ?unlock)))))))
  case load => exact ⟨rfl, Or.inl ⟨rfl, trivial⟩, fun _ => Or.inr rfl⟩
  case unlock => exact .call (r := ()) rfl (.ret _ _)

/-- PostgreSQL loads the file when it is asked to, a second after the last load. -/
theorem apply_settles_loaded : shopSite.rules = none ∧ shopSite.pg.loaded = none ∧
    (shopLoaded.withLock .ruleFile none).pg.loaded =
      some [⟨true, "shop".toList, "shop_app".toList, "203.0.113.7/32"⟩] :=
  ⟨rfl, rfl, ((apply_settles shop_run).2.1 1 rfl).2 trivial⟩

end Pgfy
