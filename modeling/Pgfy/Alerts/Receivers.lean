import Pgfy.Alerts.Messages

/-! # What a new receiver hears

    A receiver change makes every row forget what was heard, but only rows of
    conditions that are on forget when a firing message last went out. A row that
    was clear at the change can still hold the time of a message to the receiver
    before. Nothing here depends on the clock or on deliveries being recorded.
-/

namespace Pgfy

open Calendar

/-- The conditions as they were at the last receiver change. -/
def lastChange (log : List AlertNote) : Option (List AlertRow) :=
  log.findSome? (fun
    | .changed before => some before
    | _ => none)

/-- Where the time of a row's last firing message comes from: this receiver
    took it, or the row was clear when this receiver came. -/
def AlertRow.Traced (log : List AlertNote) (r : AlertRow) : Prop :=
  ∀ f ∈ r.lastFiredAt,
    (∃ n ∈ sinceChange log, n.Tells .firing r.key) ∨
      ∃ before ∈ lastChange log, ∃ b ∈ before,
        b.key = r.key ∧ b.active = false ∧ f ∈ b.lastFiredAt

def AlertSystem.Traced (s : AlertSystem) : Prop :=
  ∀ r ∈ s.tables.conditions, r.Traced s.log

/-- More notes, none of them a change, keep where a time comes from. -/
theorem AlertRow.Traced.cons {log : List AlertNote} {r r' : AlertRow} {n : AlertNote}
    (h : r.Traced log) (hn : n.isChange = false) (hkey : r'.key = r.key)
    (hfired : r'.lastFiredAt = r.lastFiredAt) : r'.Traced (n :: log) := by
  have hsince : sinceChange (n :: log) = n :: sinceChange log := by
    simp [sinceChange, hn]
  have hlast : lastChange (n :: log) = lastChange log := by
    cases n with
    | changed before => cases hn
    | pass _ _ _ => rfl
    | sent _ _ _ => rfl
  intro f hf
  rw [hsince, hlast, hkey]
  rcases h f (hfired ▸ hf) with ⟨m, hm, htells⟩ | hbefore
  · exact Or.inl ⟨m, List.mem_cons_of_mem _ hm, htells⟩
  · exact Or.inr hbefore

/-- The row that a firing message marks is traced to this message. -/
theorem AlertRow.Traced.marked {log : List AlertNote} {r : AlertRow} {now : Instant}
    {o : Outgoing} {source : Option String} (h : r.Traced log) (hk : r.key = o.key) :
    (r.marked o now).Traced (.sent now o source :: log) := by
  cases hstate : o.state with
  | event =>
    refine h.cons rfl (AlertRow.key_marked o now r) ?_
    simp [AlertRow.marked, hstate]
  | firing =>
    intro f _
    refine Or.inl ⟨_, List.mem_cons_self, now, o, source, rfl, hstate, ?_⟩
    exact hk.symm.trans (AlertRow.key_marked o now r).symm
  | resolved =>
    refine h.cons rfl (AlertRow.key_marked o now r) ?_
    simp only [AlertRow.marked, hstate]
    split <;> rfl

namespace AlertSystem.Traced

variable {s : AlertSystem} {now : Instant}

theorem record (h : s.Traced) {active : List AlertCondition} {checked : List String} :
    (s.record active checked now).Traced := by
  intro r' hr'
  rcases AlertTables.reconcile_origin hr' with hfresh | ⟨r, hr, hpassed⟩
  · intro f hf
    rw [hfresh.fired] at hf
    exact (Option.not_mem_none f hf).elim
  · exact (h r hr).cons rfl hpassed.same.key hpassed.same.fired

theorem deliver (h : s.Traced) (o : Outgoing) (d : Delivery) : (s.deliver now o d).Traced := by
  have hfail : AlertSystem.Traced { s with tables := s.tables.alertAttemptFailed o } := by
    intro r hr
    exact h r (by simpa using hr)
  cases d with
  | delivered recorded =>
    cases recorded with
    | false => exact fun r hr => (h r hr).cons rfl rfl rfl
    | true =>
      intro r' hr'
      rcases AlertTables.mem_markAlertSent hr' with ⟨r, hr, hk, rfl⟩ | ⟨hr, -⟩
      · exact (h r hr).marked hk
      · exact (h r' hr).cons rfl rfl rfl
  | rejected _ => exact hfail
  | failed => exact hfail

theorem deliverAll (h : s.Traced) (os : List Outgoing) (ds : List Delivery) :
    (s.deliverAll now os ds).Traced := by
  induction os generalizing ds s with
  | nil => exact h
  | cons o os ih =>
    cases ds with
    | nil => exact h
    | cons d ds =>
      rw [AlertSystem.deliverAll]
      split
      · exact ih (h.deliver o d) ds
      · exact h.deliver o d

theorem send (h : s.Traced) (outcomes : List Delivery) : (s.send now outcomes).Traced := by
  by_cases hurl : s.url = ""
  · have heq : s.send now outcomes = { s with pending := none } := by
      simp [AlertSystem.send, hurl]
    rw [heq]
    exact h
  · have heq : s.send now outcomes =
        { s.deliverAll now (s.tables.alertsToSend now) outcomes with pending := none } := by
      simp [AlertSystem.send, hurl]
    rw [heq]
    exact h.deliverAll (s.tables.alertsToSend now) outcomes

theorem saveWebhook (h : s.Traced) (url : String) (unread : Bool) :
    (s.saveWebhook url unread).Traced := by
  unfold AlertSystem.saveWebhook
  by_cases hchange : (if unread then "" else s.url) ≠ url
  · rw [if_pos hchange]
    intro r' hr' f hf
    obtain ⟨r, hr, rfl⟩ := List.mem_map.mp hr'
    unfold AlertRow.forReceiver at hf ⊢
    by_cases hon : r.active = true
    · rw [if_pos hon] at hf
      exact (Option.not_mem_none f hf).elim
    · -- A clear row keeps its time, and the change has noted the row.
      rw [if_neg hon] at hf ⊢
      exact Or.inr ⟨s.tables.conditions, rfl, r, hr, rfl, by simpa using hon, hf⟩
  · rw [if_neg hchange]
    exact h

end AlertSystem.Traced

theorem AlertStep.traced {ticks : Instant → Instant → Prop} {lossy : Prop} {s s' : AlertSystem}
    (h : s.Traced) (step : AlertStep ticks lossy s s') : s'.Traced := by
  cases step with
  | record active checked now _ _ => exact h.record
  | send now outcomes _ _ => exact h.send outcomes
  | abandon => exact h
  | save url unread => exact h.saveWebhook url unread
  | event kind key summary detail now => exact h

/-- A condition that is on and that the receiver has not heard fire is among the
    messages, unless it was clear when the receiver came and had fired less than
    a day before the pass. -/
theorem new_receiver_hears {ticks : Instant → Instant → Prop} {lossy : Prop} {s : AlertSystem}
    (h : AlertRun ticks lossy s) {now : Instant} {r : AlertRow}
    (hr : r ∈ s.tables.conditions) (hactive : r.active = true)
    (hunheard : ∀ n ∈ sinceChange s.log, ¬ n.Tells .firing r.key)
    (hchange : ∀ before ∈ lastChange s.log, ∀ b ∈ before, b.key = r.key → b.active = false →
      ∀ f ∈ b.lastFiredAt, f ≤ unix (now - alertRepeat)) :
    ∃ o ∈ s.tables.alertsToSend now, o.state = .firing ∧ o.key = r.key := by
  have htraced : s.Traced := h.invariant (fun _ _ hr => absurd hr List.not_mem_nil)
    (fun _ _ hs step => step.traced hs)
  have hdue : r.FiringDue now := by
    refine ⟨hactive, fun f hf => ?_⟩
    rcases htraced r hr f hf with ⟨n, hn, htells⟩ | ⟨before, hlast, b, hb, hk, hoff, hfired⟩
    · exact absurd htells (hunheard n hn)
    · exact hchange before hlast b hb hk hoff f hfired
  have hmem : r ∈ s.tables.dueConditions now :=
    AlertTables.mem_dueConditions.mpr ⟨hr, Or.inl hdue⟩
  refine ⟨r.outgoing, List.mem_append_left _ (List.mem_map.mpr ⟨r, hmem, rfl⟩), ?_, rfl⟩
  simp [AlertRow.outgoing, hactive]

/-- The disk's condition is clear when the second receiver comes. -/
def AlertSystem.secondReceiver : AlertSystem :=
  ((AlertSystem.configured.tick [diskCondition] 0).tick [] (60 * second)).saveWebhook
    "https://hooks.example.com/b" false

theorem AlertRun.secondReceiver : AlertRun (· ≤ ·) False AlertSystem.secondReceiver :=
  ((AlertRun.configured.tick _ rfl (by decide)).tick _ rfl (by decide)).step (.save _ _)

/-- A day after the message to the first receiver, the second hears. -/
theorem new_receiver_hears_next_day :
    let s := AlertSystem.secondReceiver.record [diskCondition] ["disk"] (86400 * second)
    ∃ o ∈ s.tables.alertsToSend (86400 * second), o.state = .firing ∧ o.key = "disk:data" := by
  refine new_receiver_hears
    (AlertRun.secondReceiver.step (.record [diskCondition] ["disk"] (86400 * second) rfl
      (by decide))) (List.mem_of_getElem? (i := 0) rfl) rfl ?_ ?_
  · rintro n hn ⟨_, _, _, rfl, -, -⟩
    cases hn with
    | tail _ hn => cases hn
  · intro before hbefore b hb _ _ f hf
    cases hbefore
    cases hb with
    | head =>
      cases hf
      decide
    | tail _ hb => cases hb

/-- Within that day the second receiver hears nothing of a disk that is full again. -/
theorem new_receiver_unheard :
    ∃ s, AlertRun (· ≤ ·) False s ∧ s.pending = some (120 * second) ∧ s.url ≠ "" ∧
      (∃ r ∈ s.tables.conditions, r.key = "disk:data" ∧ r.active = true) ∧
      (∀ n ∈ sinceChange s.log, ¬ n.Tells .firing "disk:data") ∧
      s.tables.alertsToSend (120 * second) = [] := by
  refine ⟨AlertSystem.secondReceiver.record [diskCondition] ["disk"] (120 * second),
    AlertRun.secondReceiver.step (.record _ _ _ rfl (by decide)), rfl, by decide,
    ⟨_, List.mem_of_getElem? (i := 0) rfl, rfl, rfl⟩, ?_, by decide⟩
  rintro n hn ⟨_, _, _, rfl, -, -⟩
  cases hn with
  | tail _ hn => cases hn

end Pgfy
