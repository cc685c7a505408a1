import Pgfy.Alerts.Engine

/-! # What a receiver hears

    With a clock that never goes back and every delivery recorded, the rows of
    the conditions say enough of the log: when a firing message last went out,
    whether the receiver waits for an end, and since when every pass has found
    the condition clear. All times are the whole seconds that the rows hold.
-/

namespace Pgfy

open Calendar

variable {r : AlertRow} {log : List AlertNote}

/-- A message on a condition `k` that the receiver took. -/
def AlertNote.Tells (state : MessageState) (k : String) (n : AlertNote) : Prop :=
  ∃ now o source, n = .sent now o source ∧ o.state = state ∧ o.key = k

/-- The latest firing message on `k` was not followed by a resolved one. -/
def AwaitsEnd (k : String) (log : List AlertNote) : Prop :=
  ∃ later n earlier, log = later ++ n :: earlier ∧ n.Tells .firing k ∧
    ∀ n' ∈ later, ¬ n'.Tells .resolved k

/-- A delivery was right, given the log before it. -/
structure SoundDelivery (now : Instant) (o : Outgoing) (source : Option String)
    (earlier : List AlertNote) : Prop where
  /-- A firing message is not repeated within a day. -/
  apart : o.state = .firing → ∀ now₁ o₁ source₁, .sent now₁ o₁ source₁ ∈ sinceChange earlier →
    o₁.state = .firing → o₁.key = o.key → unix now₁ + 86400 ≤ unix now
  /-- Only what the receiver heard fire is resolved, and once. -/
  paired : o.state = .resolved → AwaitsEnd o.key (sinceChange earlier)
  /-- Every pass of the last ten minutes looked and found the condition clear. -/
  looked : o.state = .resolved → ∀ p seen checked, .pass p seen checked ∈ earlier →
    unix now - 600 < unix p → o.key ∉ seen ∧ ∃ src ∈ source, src ∈ checked

/-- Every delivery in the log was right. -/
def Orderly (log : List AlertNote) : Prop :=
  ∀ later now o source earlier, log = later ++ .sent now o source :: earlier →
    SoundDelivery now o source earlier

theorem Orderly.nil : Orderly [] := by
  intro later now o source earlier h
  simp at h

theorem Orderly.cons {n : AlertNote} (h : Orderly log)
    (hn : ∀ now o source, n = .sent now o source → SoundDelivery now o source log) :
    Orderly (n :: log) := by
  intro later now o source earlier heq
  cases later with
  | nil =>
    obtain ⟨hhead, htail⟩ := List.cons.inj heq
    exact htail ▸ hn now o source hhead
  | cons m later => exact h later now o source earlier (List.cons.inj heq).2

/-! ### Messages that are due -/

/-- The message is due by the rows as they are. -/
def AlertTables.Due (now : Instant) (o : Outgoing) (t : AlertTables) : Prop :=
  match o.state with
  | .firing => ∃ r ∈ t.conditions, r.key = o.key ∧ r.FiringDue now
  | .resolved => ∃ r ∈ t.conditions, r.key = o.key ∧ r.ResolvedDue now
  | .event => True

/-- Two messages are not on one condition. -/
def Outgoing.Apart (o o' : Outgoing) : Prop :=
  o.state ≠ .event → o'.state ≠ .event → o.key ≠ o'.key

theorem AlertRow.due_outgoing {now : Instant} {t : AlertTables} (hr : r ∈ t.conditions)
    (h : r.FiringDue now ∨ r.ResolvedDue now) : t.Due now r.outgoing := by
  rcases h with h | h
  · have hstate : r.outgoing.state = .firing := by simp [AlertRow.outgoing, h.1]
    rw [AlertTables.Due, hstate]
    exact ⟨r, hr, rfl, h⟩
  · have hstate : r.outgoing.state = .resolved := by simp [AlertRow.outgoing, h.1]
    rw [AlertTables.Due, hstate]
    exact ⟨r, hr, rfl, h⟩

namespace AlertTables

variable {now : Instant} {t : AlertTables}

theorem mem_dueConditions :
    r ∈ t.dueConditions now ↔ r ∈ t.conditions ∧ (r.FiringDue now ∨ r.ResolvedDue now) := by
  simp [dueConditions]

theorem due_of_mem_alertsToSend {o : Outgoing} (h : o ∈ t.alertsToSend now) : t.Due now o := by
  rcases List.mem_append.mp h with h | h
  · obtain ⟨r, hr, rfl⟩ := List.mem_map.mp h
    obtain ⟨hmem, hdue⟩ := mem_dueConditions.mp hr
    exact AlertRow.due_outgoing hmem hdue
  · obtain ⟨e, -, rfl⟩ := List.mem_map.mp h
    exact trivial

theorem nodup_dueConditions (h : (t.conditions.map AlertRow.key).Nodup) :
    ((t.dueConditions now).map AlertRow.key).Nodup := by
  have hperm := (List.perm_insertionSort
    (fun a b : AlertRow => a.firstSeenAt ≤ b.firstSeenAt)
    (t.conditions.filter (fun r => r.FiringDue now ∨ r.ResolvedDue now))).map AlertRow.key
  exact hperm.nodup_iff.mpr (h.sublist (List.Sublist.map AlertRow.key List.filter_sublist))

/-- No two messages of a pass are on one condition. -/
theorem apart_alertsToSend (h : (t.conditions.map AlertRow.key).Nodup) :
    (t.alertsToSend now).Pairwise Outgoing.Apart := by
  refine List.pairwise_append.mpr ⟨?_, ?_, ?_⟩
  · have hnodup : ((t.dueConditions now).map AlertRow.key).Nodup := nodup_dueConditions h
    have hkeys := List.pairwise_map.mp hnodup
    exact List.pairwise_map.mpr (hkeys.imp (fun hne _ _ => hne))
  · refine List.pairwise_map.mpr (List.pairwise_of_forall (fun a b hevent => ?_))
    exact absurd rfl hevent
  · intro o _ o' ho' _ hevent
    obtain ⟨e, -, rfl⟩ := List.mem_map.mp ho'
    exact absurd rfl hevent

end AlertTables

/-! ### What the rows say of the log -/

/-- The time of a pass, or of the pass that a delivery belongs to. -/
def AlertNote.time : AlertNote → Option Instant
  | .pass now _ _ => some now
  | .sent now _ _ => some now
  | .changed _ => none

/-- What one row says of the log. -/
structure AlertRow.Recorded (clock : Instant) (log : List AlertNote) (r : AlertRow) : Prop where
  /-- The last firing message is not later than the end of the condition. -/
  firedAt : ∀ f ∈ r.lastFiredAt, f ≤ unix clock ∧
    (r.active = false → ∃ c ∈ r.clearSince, f ≤ c)
  heard : r.sentState = .firing → AwaitsEnd r.key (sinceChange log)
  /-- Since the condition is clear, every pass has looked. -/
  quiet : r.active = false → r.sentState = .firing → ∀ c ∈ r.clearSince,
    ∀ p seen checked, .pass p seen checked ∈ log → c < unix p →
      r.key ∉ seen ∧ r.source ∈ checked

/-- A firing message is remembered by its row, or a day has passed. -/
def Remembered (rows : List AlertRow) (log : List AlertNote) (now : Instant) (k : String) : Prop :=
  (∃ p seen checked, .pass p seen checked ∈ log ∧ unix now + 86400 ≤ unix p) ∨
    ∃ r ∈ rows, r.key = k ∧ ∃ f ∈ r.lastFiredAt, unix now ≤ f

/-- The log is right so far and the rows say what the next deliveries need. -/
structure AlertSystem.Recorded (s : AlertSystem) : Prop where
  nodup : (s.tables.conditions.map AlertRow.key).Nodup
  orderly : Orderly s.log
  past : ∀ n ∈ s.log, ∀ t ∈ n.time, t ≤ s.clock
  current : ∀ now ∈ s.pending, now ≤ s.clock ∧ ∀ n ∈ s.log, ∀ t ∈ n.time, t ≤ now
  rows : ∀ r ∈ s.tables.conditions, r.Recorded s.clock s.log
  fired : ∀ now o source, .sent now o source ∈ sinceChange s.log → o.state = .firing →
    Remembered s.tables.conditions s.log now o.key

theorem AwaitsEnd.cons {k : String} {n : AlertNote} (h : AwaitsEnd k log)
    (hn : ¬ n.Tells .resolved k) : AwaitsEnd k (n :: log) := by
  obtain ⟨later, m, earlier, rfl, hm, hlater⟩ := h
  refine ⟨n :: later, m, earlier, rfl, hm, ?_⟩
  intro n' hn'
  rcases List.mem_cons.mp hn' with rfl | hn'
  · exact hn
  · exact hlater n' hn'

theorem not_tells_pass {state : MessageState} {k : String} {now : Instant}
    {seen checked : List String} : ¬ (AlertNote.pass now seen checked).Tells state k := by
  rintro ⟨_, _, _, h, -⟩
  cases h

/-! ### A pass -/

theorem AlertRow.Fresh.recorded {clock : Instant} (h : r.Fresh) : r.Recorded clock log := by
  refine ⟨?_, ?_, ?_⟩
  · intro f hf
    rw [h.fired] at hf
    cases hf
  · intro hsent
    rw [h.sent] at hsent
    cases hsent
  · intro _ hsent
    rw [h.sent] at hsent
    cases hsent

/-- A pass at a time not before the clock keeps what a row says. -/
theorem AlertRow.Recorded.passed {clock now : Instant} {seen checked : List String}
    {r r' : AlertRow} (h : r.Recorded clock log) (hle : clock ≤ now)
    (hpast : ∀ n ∈ log, ∀ t ∈ n.time, t ≤ clock) (hr : r.Passed now seen checked r') :
    r'.Recorded now (.pass now seen checked :: log) := by
  have hsame := hr.same
  have hclock : unix clock ≤ unix now := unix_mono hle
  refine ⟨?_, ?_, ?_⟩
  · intro f hf
    obtain ⟨hf₁, hf₂⟩ := h.firedAt f (hsame.fired ▸ hf)
    refine ⟨hf₁.trans hclock, fun hactive => ?_⟩
    cases hr with
    | on _ hon => simp [hon] at hactive
    | clear _ _ hsince => exact ⟨unix now, hsince, hf₁.trans hclock⟩
    | quiet _ _ _ => exact hf₂ hactive
  · intro hsent
    rw [hsame.key, sinceChange_pass]
    exact (h.heard (hsame.sent ▸ hsent)).cons not_tells_pass
  · intro hactive hsent c hc p seen' checked' hp hlt
    cases hr with
    | on _ hon => simp [hon] at hactive
    | clear _ _ hsince =>
      -- The wait starts now, and no pass is later than now.
      rw [hsince, Option.mem_some_iff] at hc
      rcases List.mem_cons.mp hp with heq | hp
      · cases heq
        omega
      · have := unix_mono (hpast _ hp p rfl)
        omega
    | quiet hoff hunseen hlook =>
      rcases List.mem_cons.mp hp with heq | hp
      · cases heq
        exact ⟨hunseen, hlook hsent⟩
      · exact h.quiet hoff hsent c hc p seen' checked' hp hlt

theorem AlertSystem.Recorded.record {s : AlertSystem} (h : s.Recorded)
    {active : List AlertCondition} {checked : List String} {now : Instant}
    (hle : s.clock ≤ now) : (s.record active checked now).Recorded := by
  have htimes : ∀ n ∈ (s.record active checked now).log, ∀ t ∈ n.time, t ≤ now := by
    intro n hn t ht
    rcases List.mem_cons.mp hn with rfl | hn
    · cases ht
      exact le_refl now
    · exact (h.past n hn t ht).trans hle
  refine ⟨AlertTables.nodup_reconcile h.nodup, ?_, htimes, ?_, ?_, ?_⟩
  · exact h.orderly.cons (fun _ _ _ heq => by cases heq)
  · intro now' hnow
    cases hnow
    exact ⟨le_refl now, htimes⟩
  · intro r' hr'
    rcases AlertTables.reconcile_origin hr' with hfresh | ⟨r, hr, hpassed⟩
    · exact hfresh.recorded
    · exact (h.rows r hr).passed hle h.past hpassed
  · intro now' o source hsent hfiring
    rcases List.mem_cons.mp hsent with heq | hsent
    · cases heq
    rcases h.fired now' o source hsent hfiring with
      ⟨p, seen, chk, hp, hday⟩ | ⟨r, hr, hk, f, hf, hle'⟩
    · exact Or.inl ⟨p, seen, chk, List.mem_cons_of_mem _ hp, hday⟩
    have hkeeps : r.Forgotten now ∨ ∃ r' ∈ (s.record active checked now).tables.conditions,
        r.Passed now (active.map AlertCondition.key) checked r' :=
      AlertTables.reconcile_keeps h.nodup hr
    rcases hkeeps with hgone | ⟨r', hr', hpassed⟩
    · -- A row is forgotten thirty days after its end, which is not before the message.
      obtain ⟨hoff, -, c, hc, hlt⟩ := hgone
      obtain ⟨c', hc', hfc⟩ := ((h.rows r hr).firedAt f hf).2 hoff
      cases hc.symm.trans hc'
      rw [unix_sub_forgetAfter] at hlt
      exact Or.inl ⟨now, _, checked, List.mem_cons_self, by omega⟩
    · have hsame := hpassed.same
      exact Or.inr ⟨r', hr', hsame.key.trans hk, f, hsame.fired ▸ hf, hle'⟩

/-! ### A delivery -/

@[simp] theorem AlertTables.conditions_alertAttemptFailed (o : Outgoing) (t : AlertTables) :
    (t.alertAttemptFailed o).conditions = t.conditions := by
  unfold alertAttemptFailed
  split <;> rfl

/-- What `markAlertSent` makes of the row of its condition. -/
def AlertRow.marked (o : Outgoing) (now : Instant) (r : AlertRow) : AlertRow :=
  match o.state with
  | .event => r
  | .firing => { r with sentState := .firing, lastFiredAt := some (unix now) }
  | .resolved => if r.active then r else { r with sentState := .resolved }

@[simp] theorem AlertRow.key_marked (o : Outgoing) (now : Instant) (r : AlertRow) :
    (r.marked o now).key = r.key := by
  unfold AlertRow.marked
  split
  · rfl
  · rfl
  · split <;> rfl

theorem AlertTables.conditions_markAlertSent (o : Outgoing) (now : Instant) (t : AlertTables) :
    (t.markAlertSent o now).conditions =
      Table.modify AlertRow.key o.key (AlertRow.marked o now) t.conditions := by
  unfold markAlertSent AlertRow.marked
  cases o.state with
  | event => simp [modifyEvent, Table.modify]
  | firing => rfl
  | resolved => rfl

/-- A row after a delivery is the marked one of its condition, or an old one of another. -/
theorem AlertTables.mem_markAlertSent {o : Outgoing} {now : Instant} {t : AlertTables}
    {r' : AlertRow} (h : r' ∈ (t.markAlertSent o now).conditions) :
    (∃ r ∈ t.conditions, r.key = o.key ∧ r' = r.marked o now) ∨
      (r' ∈ t.conditions ∧ r'.key ≠ o.key) := by
  rw [conditions_markAlertSent] at h
  obtain ⟨r, hr, rfl⟩ := Table.mem_modify.mp h
  by_cases hk : r.key = o.key
  · exact Or.inl ⟨r, hr, hk, if_pos hk⟩
  · rw [if_neg hk]
    exact Or.inr ⟨hr, hk⟩

theorem AlertTables.marked_mem {o : Outgoing} {now : Instant} {t : AlertTables}
    (h : r ∈ t.conditions) :
    (if r.key = o.key then r.marked o now else r) ∈ (t.markAlertSent o now).conditions := by
  rw [conditions_markAlertSent]
  exact Table.mem_modify.mpr ⟨r, h, rfl⟩

theorem AlertTables.nodup_markAlertSent {o : Outgoing} {now : Instant} {t : AlertTables}
    (h : (t.conditions.map AlertRow.key).Nodup) :
    ((t.markAlertSent o now).conditions.map AlertRow.key).Nodup := by
  rw [conditions_markAlertSent, Table.map_key_modify (fun r _ hk => by simpa using hk)]
  exact h

/-- A delivery on one condition leaves what is due on the others. -/
theorem AlertTables.Due.deliver {now : Instant} {o o' : Outgoing} {s : AlertSystem}
    (h : s.tables.Due now o') (hapart : o.Apart o') (d : Delivery) :
    (s.deliver now o d).tables.Due now o' := by
  have hrow : ∀ r ∈ s.tables.conditions, r.key = o'.key → o'.state ≠ .event →
      r ∈ (s.deliver now o d).tables.conditions := by
    intro r hr hk hevent'
    cases d with
    | delivered recorded =>
      cases recorded with
      | false => exact hr
      | true =>
        have hmem : (if r.key = o.key then r.marked o now else r) ∈
            (s.tables.markAlertSent o now).conditions := marked_mem hr
        by_cases hsame : r.key = o.key
        · -- Only an event can carry the key of another message.
          have hevent : o.state = .event := by
            by_contra hne
            exact hapart hne hevent' (hsame.symm.trans hk)
          rw [if_pos hsame, AlertRow.marked, hevent] at hmem
          exact hmem
        · rw [if_neg hsame] at hmem
          exact hmem
    | rejected _ | failed => simpa [AlertSystem.deliver] using hr
  unfold AlertTables.Due at h ⊢
  cases hstate : o'.state with
  | event => trivial
  | firing | resolved =>
    rw [hstate] at h
    obtain ⟨r, hr, hk, hdue⟩ := h
    exact ⟨r, hrow r hr hk (by simp [hstate]), hk, hdue⟩

/-- A row goes on saying the same after a delivery that is not its end. -/
theorem AlertRow.Recorded.sent {clock now : Instant} {o : Outgoing} {source : Option String}
    (h : r.Recorded clock log) (hother : ¬ (AlertNote.sent now o source).Tells .resolved r.key) :
    r.Recorded clock (.sent now o source :: log) := by
  refine ⟨h.firedAt, ?_, ?_⟩
  · intro hsent
    exact (h.heard hsent).cons hother
  · intro hoff hsent c hc p seen checked hp hlt
    rcases List.mem_cons.mp hp with heq | hp
    · cases heq
    · exact h.quiet hoff hsent c hc p seen checked hp hlt

namespace AlertSystem.Recorded

variable {s : AlertSystem} {now : Instant} {o : Outgoing}

/-- Rows are told apart by their keys. -/
theorem row_unique (h : s.Recorded) {r r' : AlertRow} (hr : r ∈ s.tables.conditions)
    (hr' : r' ∈ s.tables.conditions) (hk : r.key = r'.key) : r = r' :=
  List.inj_on_of_nodup_map h.nodup hr hr' hk

theorem due_firing (hdue : s.tables.Due now o) (hstate : o.state = .firing) :
    ∃ r ∈ s.tables.conditions, r.key = o.key ∧ r.FiringDue now := by
  simpa [AlertTables.Due, hstate] using hdue

theorem due_resolved (hdue : s.tables.Due now o) (hstate : o.state = .resolved) :
    ∃ r ∈ s.tables.conditions, r.key = o.key ∧ r.ResolvedDue now := by
  simpa [AlertTables.Due, hstate] using hdue

/-- What is due by the rows is right by the log. -/
theorem sound (h : s.Recorded) (hnow : s.pending = some now) (hdue : s.tables.Due now o) :
    SoundDelivery now o (s.tables.sourceOf o.key) s.log := by
  obtain ⟨-, hcurrent⟩ := h.current now hnow
  refine ⟨?_, ?_, ?_⟩
  · intro hstate now₁ o₁ source₁ hsent hfiring hkey
    obtain ⟨r, hr, hk, -, hrepeat⟩ := due_firing hdue hstate
    rcases h.fired now₁ o₁ source₁ hsent hfiring with
      ⟨p, seen, checked, hp, hday⟩ | ⟨r₁, hr₁, hk₁, f, hf, hle⟩
    · exact hday.trans (unix_mono (hcurrent _ hp p rfl))
    · have hrow : r₁ = r := h.row_unique hr₁ hr (hk₁.trans (hkey.trans hk.symm))
      have hlast := hrepeat f (hrow ▸ hf)
      rw [unix_sub_repeat] at hlast
      omega
  · intro hstate
    obtain ⟨r, hr, hk, -, hfiring, -⟩ := due_resolved hdue hstate
    exact hk ▸ (h.rows r hr).heard hfiring
  · intro hstate p seen checked hp hlate
    obtain ⟨r, hr, hk, hoff, hfiring, c, hc, hwait⟩ := due_resolved hdue hstate
    rw [unix_sub_clearAfter] at hwait
    obtain ⟨hunseen, hlook⟩ := (h.rows r hr).quiet hoff hfiring c hc p seen checked hp (by omega)
    refine ⟨hk ▸ hunseen, r.source, ?_, hlook⟩
    rw [AlertTables.sourceOf, ← hk, Table.find_of_mem h.nodup hr]
    rfl

/-- The row of a delivered message says so. -/
theorem marked_recorded (h : s.Recorded) (hnow : s.pending = some now) (hdue : s.tables.Due now o)
    {source : Option String} (hr : r ∈ s.tables.conditions) (hk : r.key = o.key) :
    (r.marked o now).Recorded s.clock (.sent now o source :: s.log) := by
  cases hstate : o.state with
  | event =>
    have hmarked : r.marked o now = r := by simp [AlertRow.marked, hstate]
    rw [hmarked]
    refine (h.rows r hr).sent ?_
    rintro ⟨_, _, _, heq, hres, -⟩
    cases heq
    simp [hstate] at hres
  | firing =>
    obtain ⟨r₁, hr₁, hk₁, hon, -⟩ := due_firing hdue hstate
    obtain rfl : r₁ = r := h.row_unique hr₁ hr (hk₁.trans hk.symm)
    have hmarked : r₁.marked o now =
        { r₁ with sentState := .firing, lastFiredAt := some (unix now) } := by
      simp [AlertRow.marked, hstate]
    rw [hmarked]
    refine ⟨?_, ?_, ?_⟩
    · intro f hf
      cases hf
      exact ⟨unix_mono (h.current now hnow).1, fun hoff => by simp [hon] at hoff⟩
    · intro _
      exact ⟨[], _, sinceChange s.log, rfl, ⟨now, o, source, rfl, hstate, hk.symm⟩,
        fun n' hn' => absurd hn' List.not_mem_nil⟩
    · intro hoff
      simp [hon] at hoff
  | resolved =>
    obtain ⟨r₁, hr₁, hk₁, hoff, -⟩ := due_resolved hdue hstate
    obtain rfl : r₁ = r := h.row_unique hr₁ hr (hk₁.trans hk.symm)
    have hmarked : r₁.marked o now = { r₁ with sentState := .resolved } := by
      simp [AlertRow.marked, hstate, hoff]
    rw [hmarked]
    exact ⟨(h.rows r₁ hr).firedAt, fun hsent => by simp at hsent,
      fun _ hsent => by simp at hsent⟩

/-- Marking a row never takes the time of its last firing message back. -/
theorem fired_marked {f t : ℤ} (hf : f ∈ r.lastFiredAt) (hle : t ≤ f) (hnow : t ≤ unix now) :
    ∃ f' ∈ (r.marked o now).lastFiredAt, t ≤ f' := by
  unfold AlertRow.marked
  split
  · exact ⟨f, hf, hle⟩
  · exact ⟨unix now, rfl, hnow⟩
  · split <;> exact ⟨f, hf, hle⟩

theorem delivered (h : s.Recorded) (hnow : s.pending = some now) (hdue : s.tables.Due now o) :
    (s.deliver now o (.delivered true)).Recorded := by
  obtain ⟨hclock, hcurrent⟩ := h.current now hnow
  refine ⟨AlertTables.nodup_markAlertSent h.nodup, ?_, ?_, ?_, ?_, ?_⟩
  · refine h.orderly.cons (fun now' o' source heq => ?_)
    cases heq
    exact h.sound hnow hdue
  · intro n hn t ht
    rcases List.mem_cons.mp hn with rfl | hn
    · cases ht
      exact hclock
    · exact h.past n hn t ht
  · intro now' hnow'
    cases hnow.symm.trans hnow'
    refine ⟨hclock, fun n hn t ht => ?_⟩
    rcases List.mem_cons.mp hn with rfl | hn
    · cases ht
      exact le_refl now
    · exact hcurrent n hn t ht
  · intro r' hr'
    rcases AlertTables.mem_markAlertSent hr' with ⟨r, hr, hk, rfl⟩ | ⟨hr, hne⟩
    · exact h.marked_recorded hnow hdue hr hk
    · refine (h.rows r' hr).sent ?_
      rintro ⟨_, _, _, heq, -, hkey⟩
      cases heq
      exact hne hkey.symm
  · intro now₁ o₁ source₁ hsent hfiring
    rcases List.mem_cons.mp hsent with heq | hsent
    · cases heq
      obtain ⟨r, hr, hk, -⟩ := due_firing hdue hfiring
      have hmem : (if r.key = o.key then r.marked o now else r) ∈
          (s.tables.markAlertSent o now).conditions := AlertTables.marked_mem hr
      rw [if_pos hk] at hmem
      refine Or.inr ⟨r.marked o now, hmem, (AlertRow.key_marked o now r).trans hk, unix now, ?_,
        le_refl _⟩
      simp [AlertRow.marked, hfiring]
    · rcases h.fired now₁ o₁ source₁ hsent hfiring with
        ⟨p, seen, checked, hp, hday⟩ | ⟨r, hr, hk, f, hf, hle⟩
      · exact Or.inl ⟨p, seen, checked, List.mem_cons_of_mem _ hp, hday⟩
      · have hbefore : unix now₁ ≤ unix now :=
          unix_mono (hcurrent _ (mem_of_mem_sinceChange hsent) now₁ rfl)
        have hmem : (if r.key = o.key then r.marked o now else r) ∈
            (s.tables.markAlertSent o now).conditions := AlertTables.marked_mem hr
        refine Or.inr ⟨_, hmem, ?_, ?_⟩
        · split
          · exact (AlertRow.key_marked o now r).trans hk
          · exact hk
        · split
          · exact fired_marked hf hle hbefore
          · exact ⟨f, hf, hle⟩

/-- Every delivery that is recorded, or that fails, keeps the invariant. -/
theorem deliver (h : s.Recorded) (hnow : s.pending = some now) (hdue : s.tables.Due now o)
    {d : Delivery} (hd : d ≠ .delivered false) : (s.deliver now o d).Recorded := by
  have hfail : { s with tables := s.tables.alertAttemptFailed o }.Recorded :=
    ⟨by simpa using h.nodup, h.orderly, h.past, h.current, by simpa using h.rows,
      by simpa using h.fired⟩
  cases d with
  | delivered recorded =>
    cases recorded with
    | false => exact absurd rfl hd
    | true => exact h.delivered hnow hdue
  | rejected _ => exact hfail
  | failed => exact hfail

/-- The messages of a pass, one after the other. -/
theorem deliverAll (h : s.Recorded) (hnow : s.pending = some now) {os : List Outgoing}
    {ds : List Delivery} (hdue : ∀ o ∈ os, s.tables.Due now o) (hapart : os.Pairwise Outgoing.Apart)
    (hds : Delivery.delivered false ∉ ds) : (s.deliverAll now os ds).Recorded := by
  induction os generalizing ds s with
  | nil => exact h
  | cons o os ih =>
    cases ds with
    | nil => exact h
    | cons d ds =>
      obtain ⟨hfirst, hrest⟩ := List.pairwise_cons.mp hapart
      have hd : d ≠ .delivered false := fun heq => hds (heq ▸ List.mem_cons_self)
      have hone := h.deliver hnow (hdue o List.mem_cons_self) hd
      have hpending : (s.deliver now o d).pending = some now := by
        cases d <;> exact hnow
      rw [AlertSystem.deliverAll]
      split
      · refine ih hone hpending ?_ hrest (fun hmem => hds (List.mem_cons_of_mem _ hmem))
        intro o' ho'
        exact (hdue o' (List.mem_cons_of_mem _ ho')).deliver (hfirst o' ho') d
      · exact hone

theorem idle (h : s.Recorded) : { s with pending := none }.Recorded :=
  ⟨h.nodup, h.orderly, h.past, fun _ hnow => (Option.not_mem_none _ hnow).elim, h.rows, h.fired⟩

theorem send (h : s.Recorded) (hnow : s.pending = some now) {outcomes : List Delivery}
    (hkept : Delivery.delivered false ∉ outcomes) : (s.send now outcomes).Recorded := by
  refine AlertSystem.Recorded.idle ?_
  split
  · exact h
  · exact h.deliverAll hnow (fun o ho => AlertTables.due_of_mem_alertsToSend ho)
      (AlertTables.apart_alertsToSend h.nodup) hkept

/-! ### A receiver change and an event -/

/-- A new receiver has heard nothing. -/
theorem changed (h : s.Recorded) {url : String} :
    { s with
      tables := s.tables.resetDelivery, url := url,
      log := .changed s.tables.conditions :: s.log }.Recorded := by
  have hkey : AlertRow.key ∘ AlertRow.forReceiver = AlertRow.key := by
    funext r
    simp only [Function.comp, AlertRow.forReceiver]
    split <;> rfl
  refine ⟨?_, h.orderly.cons (fun _ _ _ heq => by cases heq), ?_, ?_, ?_, ?_⟩
  · rw [AlertTables.resetDelivery, List.map_map, hkey]
    exact h.nodup
  · intro n hn t ht
    rcases List.mem_cons.mp hn with rfl | hn
    · cases ht
    · exact h.past n hn t ht
  · intro now' hnow'
    obtain ⟨hclock, hcurrent⟩ := h.current now' hnow'
    refine ⟨hclock, fun n hn t ht => ?_⟩
    rcases List.mem_cons.mp hn with rfl | hn
    · cases ht
    · exact hcurrent n hn t ht
  · intro r' hr'
    obtain ⟨r, hr, rfl⟩ := List.mem_map.mp hr'
    have hsent : r.forReceiver.sentState = .nothing := by
      unfold AlertRow.forReceiver
      split <;> rfl
    refine ⟨?_, fun hfiring => by simp [hsent] at hfiring,
      fun _ hfiring => by simp [hsent] at hfiring⟩
    intro f hf
    unfold AlertRow.forReceiver at hf ⊢
    split at hf
    · cases hf
    · next hoff =>
      rw [if_neg hoff]
      exact (h.rows r hr).firedAt f hf
  · intro now' o source hsent
    cases hsent

theorem saveWebhook (h : s.Recorded) {url : String} {unread : Bool} :
    (s.saveWebhook url unread).Recorded := by
  unfold AlertSystem.saveWebhook
  by_cases hchange : (if unread then "" else s.url) ≠ url
  · rw [if_pos hchange]
    exact h.changed
  · rw [if_neg hchange]
    exact ⟨h.nodup, h.orderly, h.past, h.current, h.rows, h.fired⟩

theorem event (h : s.Recorded) {kind key summary detail : String} {now : Instant} :
    (s.event kind key summary detail now).Recorded :=
  ⟨h.nodup, h.orderly, h.past, h.current, h.rows, h.fired⟩

end AlertSystem.Recorded

/-! ### Every run -/

theorem AlertStep.recorded {s s' : AlertSystem} (h : s.Recorded)
    (step : AlertStep (· ≤ ·) False s s') : s'.Recorded := by
  cases step with
  | record active checked now _ time => exact h.record time
  | send now outcomes pending kept => exact h.send pending (kept.resolve_left id)
  | abandon => exact h.idle
  | save url unread => exact h.saveWebhook
  | event kind key summary detail now => exact h.event

theorem AlertSystem.Recorded.start (clock : Instant) :
    AlertSystem.Recorded { clock := clock } where
  nodup := List.nodup_nil
  orderly := .nil
  past := fun _ hn => absurd hn List.not_mem_nil
  current := fun _ hnow => by cases hnow
  rows := fun _ hr => absurd hr List.not_mem_nil
  fired := fun _ _ _ hsent => absurd hsent List.not_mem_nil

/-- With a clock that never goes back and every delivery recorded, each message
    a receiver takes is in order: firing messages a day apart, an end told once
    and only of what was heard, after ten minutes of passes that looked. -/
theorem receiver_hears_in_order {s : AlertSystem} (h : AlertRun (· ≤ ·) False s) :
    Orderly s.log :=
  (h.invariant AlertSystem.Recorded.start (fun _ _ => AlertStep.recorded)).orderly

/-- A disk that is nearly full. -/
def diskCondition : AlertCondition :=
  ⟨"disk:data", "disk", "disk", "The data disk is nearly full.", ""⟩

/-- A pass whose messages all arrive. -/
def AlertSystem.tick (active : List AlertCondition) (now : Instant) (s : AlertSystem) :
    AlertSystem :=
  (s.record active ["disk"] now).send now [.delivered true]

theorem AlertRun.tick {ticks : Instant → Instant → Prop} {s : AlertSystem}
    (h : AlertRun ticks False s) (active : List AlertCondition) {now : Instant}
    (hidle : s.pending = none) (htime : ticks s.clock now) :
    AlertRun ticks False (s.tick active now) :=
  (h.step (.record active ["disk"] now hidle htime)).step
    (.send now [.delivered true] rfl (Or.inr (by decide)))

/-- An installation with a receiver. -/
def AlertSystem.configured : AlertSystem :=
  AlertSystem.saveWebhook "https://hooks.example.com/a" false { clock := 0 }

theorem AlertRun.configured {ticks : Instant → Instant → Prop} {lossy : Prop} :
    AlertRun ticks lossy AlertSystem.configured :=
  (AlertRun.start 0).step (.save "https://hooks.example.com/a" false)

/-- A disk fills, is freed, and stays so for ten minutes. -/
theorem receiver_hears_in_order_disk :
    let s := ((AlertSystem.configured.tick [diskCondition] 0).tick [] (60 * second)).tick []
      (660 * second)
    (∃ n ∈ s.log, n.Tells .firing "disk:data") ∧ (∃ n ∈ s.log, n.Tells .resolved "disk:data") ∧
      Orderly s.log := by
  refine ⟨⟨_, List.mem_of_getElem? (i := 3) rfl, _, _, _, rfl, rfl, rfl⟩,
    ⟨_, List.mem_of_getElem? (i := 0) rfl, _, _, _, rfl, rfl, rfl⟩, receiver_hears_in_order ?_⟩
  refine ((AlertRun.configured.tick _ rfl ?_).tick _ rfl ?_).tick _ rfl ?_ <;> decide

/-- Firing messages can be less than a day apart by the part of a second that
    the rows do not hold. -/
theorem firing_repeated_within_day :
    ∃ s, AlertRun (· ≤ ·) False s ∧ ∃ now₁ now₂ o₁ o₂ source₁ source₂ earlier,
      s.log = .sent now₂ o₂ source₂ :: earlier ∧
      .sent now₁ o₁ source₁ ∈ sinceChange earlier ∧ o₁.state = .firing ∧ o₂.state = .firing ∧
      o₁.key = o₂.key ∧ now₂ < now₁ + 24 * hour := by
  refine ⟨(AlertSystem.configured.tick [diskCondition] 900000000).tick [diskCondition]
    (86400 * second), (AlertRun.configured.tick _ rfl (by decide)).tick _ rfl (by decide),
    900000000, 86400 * second, _, _, _, _, _, rfl, List.mem_of_getElem? (i := 1) rfl, rfl, rfl,
    rfl, by decide⟩

end Pgfy
