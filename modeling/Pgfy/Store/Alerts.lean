import Pgfy.Framework.Calendar
import Pgfy.Framework.Table

/-! # Statements on alerts

    A condition has a row from the first pass that sees it until long after its
    end. The row says whether the condition is on, since when it is clear, and
    what the receiver has heard of it. One-shot events wait in a table of their
    own.
-/

namespace Pgfy

open Calendar

/-- A condition that a pass finds on. -/
structure AlertCondition where
  key : String
  kind : String
  source : String
  summary : String
  detail : String
deriving DecidableEq

/-- What the receiver last heard of a condition. -/
inductive SentState where
  | nothing
  | firing
  | resolved
deriving DecidableEq

structure AlertRow where
  key : String
  kind : String
  source : String
  summary : String
  detail : String
  active : Bool
  firstSeenAt : ℤ
  lastSeenAt : ℤ
  clearSince : Option ℤ := none
  lastFiredAt : Option ℤ := none
  sentState : SentState := .nothing
deriving DecidableEq

/-- A one-shot event that waits for its delivery. -/
structure EventRow where
  id : ℕ
  key : String
  kind : String
  summary : String
  detail : String
  createdAt : ℤ
  sentAt : Option ℤ := none
  attempts : ℕ := 0
deriving DecidableEq

structure AlertTables where
  conditions : List AlertRow := []
  events : List EventRow := []
  /-- The last number given to an event; a deleted one's is not used again. -/
  lastEvent : ℕ := 0
deriving DecidableEq

/-- How long a firing message is not repeated. -/
def alertRepeat : ℤ := 24 * hour

/-- How long a condition must stay clear before its resolved message. -/
def alertClearAfter : ℤ := 600 * second

/-- How long an undelivered event is kept. -/
def alertEventMaxAge : ℤ := 24 * hour

/-- How long what is over and heard is remembered. -/
def alertForgetAfter : ℤ := 30 * 24 * hour

/-! ### A pass -/

/-- Records a condition that is on; it is the same occurrence if it was on
    before or had cleared only a moment ago. -/
def AlertRow.see (now : Instant) (c : AlertCondition) (old : Option AlertRow) : AlertRow :=
  match old with
  | none => ⟨c.key, c.kind, c.source, c.summary, c.detail, true, unix now, unix now, none, none,
      .nothing⟩
  | some r =>
    { r with
      kind := c.kind, source := c.source, summary := c.summary, detail := c.detail
      firstSeenAt :=
        if r.active || r.clearSince.any (fun c => unix now - c < 600) then r.firstSeenAt
        else unix now
      active := true, lastSeenAt := unix now, clearSince := none }

/-- A condition waiting for its resolved message whose source was not checked
    waits anew. -/
def AlertRow.waitAnew (now : Instant) (checked : List String) (r : AlertRow) : AlertRow :=
  if !r.active && r.sentState = .firing && r.source ∉ checked then
    { r with clearSince := some (unix now) }
  else r

/-- A condition that was not seen is clear if its source was checked. -/
def AlertRow.clear (now : Instant) (seen checked : List String) (r : AlertRow) : AlertRow :=
  if r.active && r.key ∉ seen && r.source ∈ checked then
    { r with active := false, clearSince := some (unix now) }
  else r

/-- Long over, and the receiver has heard its end. -/
def AlertRow.Forgotten (now : Instant) (r : AlertRow) : Prop :=
  r.active = false ∧ r.sentState ≠ .firing ∧ ∃ c ∈ r.clearSince, c < unix (now - alertForgetAfter)

instance (now : Instant) (r : AlertRow) : Decidable (r.Forgotten now) :=
  inferInstanceAs (Decidable (_ ∧ _ ∧ _))

/-- Delivered long ago, or never delivered and too old. -/
def EventRow.Dropped (now : Instant) (e : EventRow) : Prop :=
  match e.sentAt with
  | some sent => sent < unix (now - alertForgetAfter)
  | none => e.createdAt < unix (now - alertEventMaxAge)

instance (now : Instant) (e : EventRow) : Decidable (e.Dropped now) := by
  unfold EventRow.Dropped
  split <;> infer_instance

namespace AlertTables

/-- The conditions after those that are on have been recorded. -/
def seeAll (active : List AlertCondition) (now : Instant) (rows : List AlertRow) :
    List AlertRow :=
  active.foldl (fun rows c => Table.upsert AlertRow.key c.key (AlertRow.see now c) rows) rows

/-- Records the conditions that are on now. A known one that is missing is clear
    only if its source was checked. -/
def reconcileAlerts (active : List AlertCondition) (checked : List String) (now : Instant)
    (t : AlertTables) : AlertTables where
  conditions := ((seeAll active now t.conditions).map (fun r =>
    (r.waitAnew now checked).clear now (active.map AlertCondition.key) checked)).filter
      (fun r => ¬ r.Forgotten now)
  events := t.events.filter (fun e => ¬ e.Dropped now)
  lastEvent := t.lastEvent

end AlertTables

/-! ### Messages -/

inductive MessageState where
  | firing
  | resolved
  | event
deriving DecidableEq

/-- One message to deliver. -/
structure Outgoing where
  key : String
  kind : String
  state : MessageState
  summary : String
  detail : String
  eventID : ℕ := 0
  at_ : ℤ
deriving DecidableEq

/-- A firing message is due. -/
def AlertRow.FiringDue (now : Instant) (r : AlertRow) : Prop :=
  r.active = true ∧ ∀ fired ∈ r.lastFiredAt, fired ≤ unix (now - alertRepeat)

/-- A resolved message is due. -/
def AlertRow.ResolvedDue (now : Instant) (r : AlertRow) : Prop :=
  r.active = false ∧ r.sentState = .firing ∧ ∃ c ∈ r.clearSince, c ≤ unix (now - alertClearAfter)

instance (now : Instant) (r : AlertRow) : Decidable (r.FiringDue now) :=
  inferInstanceAs (Decidable (_ ∧ _))

instance (now : Instant) (r : AlertRow) : Decidable (r.ResolvedDue now) :=
  inferInstanceAs (Decidable (_ ∧ _ ∧ _))

/-- The message of a condition. -/
def AlertRow.outgoing (r : AlertRow) : Outgoing :=
  { key := r.key, kind := r.kind, state := if r.active then .firing else .resolved,
    summary := r.summary, detail := r.detail, at_ := r.lastSeenAt }

/-- The message of an event. -/
def EventRow.outgoing (e : EventRow) : Outgoing :=
  { key := e.key, kind := e.kind, state := .event, summary := e.summary, detail := e.detail,
    eventID := e.id, at_ := e.createdAt }

/-- What a row says to a new receiver: nothing was heard. The time of the last
    firing message is forgotten only for a condition that is on. -/
def AlertRow.forReceiver (r : AlertRow) : AlertRow :=
  if r.active then { r with sentState := .nothing, lastFiredAt := none }
  else { r with sentState := .nothing }

namespace AlertTables

/-- The rows of conditions with a message due, by when they were first seen. -/
def dueConditions (now : Instant) (t : AlertTables) : List AlertRow :=
  (t.conditions.filter (fun r => r.FiringDue now ∨ r.ResolvedDue now)).insertionSort
    (fun a b => a.firstSeenAt ≤ b.firstSeenAt)

/-- The messages to deliver: conditions, then events in order. -/
def alertsToSend (now : Instant) (t : AlertTables) : List Outgoing :=
  (t.dueConditions now).map AlertRow.outgoing ++
    ((t.events.filter (fun e =>
        e.sentAt = none ∧ unix (now - alertEventMaxAge) ≤ e.createdAt)).insertionSort
      (fun a b => a.id ≤ b.id)).map EventRow.outgoing

/-- Changes the row of one condition. -/
def modifyCondition (key : String) (f : AlertRow → AlertRow) (t : AlertTables) : AlertTables :=
  { t with conditions := Table.modify AlertRow.key key f t.conditions }

/-- Changes one event. -/
def modifyEvent (id : ℕ) (f : EventRow → EventRow) (t : AlertTables) : AlertTables :=
  { t with events := Table.modify EventRow.id id f t.events }

/-- Records what the receiver has now heard. -/
def markAlertSent (o : Outgoing) (now : Instant) (t : AlertTables) : AlertTables :=
  match o.state with
  | .event => t.modifyEvent o.eventID (fun e => { e with
      sentAt := some (unix now), attempts := e.attempts + 1 })
  | .firing => t.modifyCondition o.key (fun r => { r with
      sentState := .firing, lastFiredAt := some (unix now) })
  | .resolved => t.modifyCondition o.key (fun r =>
      if r.active then r else { r with sentState := .resolved })

def alertAttemptFailed (o : Outgoing) (t : AlertTables) : AlertTables :=
  match o.state with
  | .event => t.modifyEvent o.eventID (fun e => { e with attempts := e.attempts + 1 })
  | _ => t

/-- The update of `SetAlertWebhook` when the receiver changes. -/
def resetDelivery (t : AlertTables) : AlertTables :=
  { t with conditions := t.conditions.map AlertRow.forReceiver }

/-- Queues a one-shot event under the next number. -/
def recordEvent (kind key summary detail : String) (now : Instant) (t : AlertTables) :
    AlertTables :=
  { t with
    events := t.events ++ [{
      id := t.lastEvent + 1, key := key, kind := kind, summary := summary, detail := detail,
      createdAt := unix now }]
    lastEvent := t.lastEvent + 1 }

/-- The source that a condition is recorded under. -/
def sourceOf (key : String) (t : AlertTables) : Option String :=
  (Table.find AlertRow.key key t.conditions).map AlertRow.source

end AlertTables

/-! ### What a pass does to a row -/

/-- The row says the same of the same condition's deliveries. -/
structure AlertRow.SameDelivery (r r' : AlertRow) : Prop where
  key : r'.key = r.key
  fired : r'.lastFiredAt = r.lastFiredAt
  sent : r'.sentState = r.sentState

/-- What recording the conditions that are on makes of a row. -/
structure AlertRow.Seen (seen : List String) (r r' : AlertRow) : Prop where
  same : r.SameDelivery r'
  on : r.key ∈ seen → r'.active = true
  kept : r.key ∉ seen → r' = r

/-- A row of a condition that no one has heard of. -/
structure AlertRow.Fresh (r : AlertRow) : Prop where
  fired : r.lastFiredAt = none
  sent : r.sentState = .nothing

theorem AlertRow.Seen.refl (r : AlertRow) : AlertRow.Seen [] r r :=
  ⟨⟨rfl, rfl, rfl⟩, fun h => absurd h List.not_mem_nil, fun _ => rfl⟩

/-- Seeing one more condition, before those already in `seen`. -/
theorem AlertRow.Seen.before {seen : List String} {k : String} {r r₁ r₂ : AlertRow}
    (h₁ : AlertRow.Seen [k] r r₁) (h₂ : AlertRow.Seen seen r₁ r₂) :
    AlertRow.Seen (k :: seen) r r₂ := by
  have hkey : r₁.key = r.key := h₁.same.key
  refine ⟨⟨h₂.same.key.trans hkey, h₂.same.fired.trans h₁.same.fired,
    h₂.same.sent.trans h₁.same.sent⟩, ?_, ?_⟩
  · intro hmem
    by_cases hlater : r.key ∈ seen
    · exact h₂.on (hkey ▸ hlater)
    · have hk : r.key ∈ [k] := by
        rcases List.mem_cons.mp hmem with hk | hk
        · exact List.mem_singleton.mpr hk
        · exact absurd hk hlater
      rw [h₂.kept (hkey ▸ hlater)]
      exact h₁.on hk
  · intro hnot
    have hfirst : r₁ = r := h₁.kept (fun hk => hnot (List.mem_cons.mpr
      (Or.inl (List.mem_singleton.mp hk))))
    rw [h₂.kept (hkey ▸ fun hk => hnot (List.mem_cons_of_mem _ hk)), hfirst]

@[simp] theorem AlertRow.key_see (now : Instant) (c : AlertCondition) (rows : List AlertRow) :
    (AlertRow.see now c (Table.find AlertRow.key c.key rows)).key = c.key := by
  cases hfind : Table.find AlertRow.key c.key rows with
  | none => rfl
  | some r => exact (Table.find_eq_some hfind).2

theorem AlertRow.seen_see {now : Instant} {c : AlertCondition} {r : AlertRow}
    (hkey : r.key = c.key) : AlertRow.Seen [c.key] r (AlertRow.see now c (some r)) :=
  ⟨⟨rfl, rfl, rfl⟩, fun _ => rfl, fun h => absurd (List.mem_singleton.mpr hkey) h⟩

theorem AlertRow.seen_of_ne {k : String} {r : AlertRow} (hkey : r.key ≠ k) :
    AlertRow.Seen [k] r r :=
  ⟨⟨rfl, rfl, rfl⟩, fun h => absurd (List.mem_singleton.mp h) hkey, fun _ => rfl⟩

namespace AlertTables

theorem nodup_seeAll {active : List AlertCondition} {now : Instant} {rows : List AlertRow}
    (h : (rows.map AlertRow.key).Nodup) : ((seeAll active now rows).map AlertRow.key).Nodup := by
  induction active generalizing rows with
  | nil => exact h
  | cons c rest ih => exact ih (Table.nodup_upsert (AlertRow.key_see now c rows) h)

/-- Every row comes from an earlier one, or is of a condition first seen now. -/
theorem seeAll_origin {active : List AlertCondition} {now : Instant} {rows : List AlertRow}
    {r' : AlertRow} (h : r' ∈ seeAll active now rows) :
    (∃ r ∈ rows, AlertRow.Seen (active.map AlertCondition.key) r r') ∨ r'.Fresh := by
  induction active generalizing rows with
  | nil => exact Or.inl ⟨r', h, .refl r'⟩
  | cons c rest ih =>
    rcases ih h with ⟨r₁, hr₁, hseen⟩ | hfresh
    · rcases Table.mem_upsert.mp hr₁ with rfl | ⟨hold, hne⟩
      · cases hfind : Table.find AlertRow.key c.key rows with
        | none =>
          rw [hfind] at hseen
          exact Or.inr ⟨hseen.same.fired, hseen.same.sent⟩
        | some r =>
          rw [hfind] at hseen
          obtain ⟨hmem, hkey⟩ := Table.find_eq_some hfind
          exact Or.inl ⟨r, hmem, (AlertRow.seen_see hkey).before hseen⟩
      · exact Or.inl ⟨r₁, hold, (AlertRow.seen_of_ne hne).before hseen⟩
    · exact Or.inr hfresh

/-- Recording what is on loses no row. -/
theorem seeAll_keeps {active : List AlertCondition} {now : Instant} {rows : List AlertRow}
    (hnodup : (rows.map AlertRow.key).Nodup) {r : AlertRow} (h : r ∈ rows) :
    ∃ r' ∈ seeAll active now rows, AlertRow.Seen (active.map AlertCondition.key) r r' := by
  induction active generalizing rows r with
  | nil => exact ⟨r, h, .refl r⟩
  | cons c rest ih =>
    have hnodup' := Table.nodup_upsert (AlertRow.key_see now c rows) hnodup
    by_cases hkey : r.key = c.key
    · have hfind : Table.find AlertRow.key c.key rows = some r :=
        hkey ▸ Table.find_of_mem hnodup h
      obtain ⟨r', hr', hseen⟩ := ih hnodup' (Table.mem_upsert.mpr (Or.inl rfl))
      rw [hfind] at hseen
      exact ⟨r', hr', (AlertRow.seen_see hkey).before hseen⟩
    · obtain ⟨r', hr', hseen⟩ := ih hnodup' (Table.mem_upsert.mpr (Or.inr ⟨h, hkey⟩))
      exact ⟨r', hr', (AlertRow.seen_of_ne hkey).before hseen⟩

end AlertTables

/-- What a pass makes of a row that it keeps. -/
inductive AlertRow.Passed (now : Instant) (seen checked : List String) (r : AlertRow) :
    AlertRow → Prop where
  /-- The condition is on: it was seen, or nothing says that it ended. -/
  | on {r'} (same : r.SameDelivery r') (active : r'.active = true) : Passed now seen checked r r'
  /-- The condition is clear from this pass on. -/
  | clear {r'} (same : r.SameDelivery r') (active : r'.active = false)
      (since : r'.clearSince = some (unix now)) : Passed now seen checked r r'
  /-- The condition was clear and was checked, if its end is still to be told. -/
  | quiet (active : r.active = false) (unseen : r.key ∉ seen)
      (look : r.sentState = .firing → r.source ∈ checked) : Passed now seen checked r r

theorem AlertRow.Passed.same {now : Instant} {seen checked : List String} {r r' : AlertRow}
    (h : r.Passed now seen checked r') : r.SameDelivery r' := by
  cases h with
  | on same _ => exact same
  | clear same _ _ => exact same
  | quiet _ _ _ => exact ⟨rfl, rfl, rfl⟩

theorem AlertRow.sameDelivery_settle (now : Instant) (seen checked : List String)
    (r : AlertRow) : r.SameDelivery ((r.waitAnew now checked).clear now seen checked) := by
  unfold AlertRow.clear AlertRow.waitAnew
  constructor <;> split_ifs <;> rfl

/-- A row seen or not, then settled, has passed. -/
theorem AlertRow.Seen.passed {now : Instant} {seen checked : List String} {r r₁ : AlertRow}
    (h : AlertRow.Seen seen r r₁) :
    r.Passed now seen checked ((r₁.waitAnew now checked).clear now seen checked) := by
  have hsettle := AlertRow.sameDelivery_settle now seen checked r₁
  have hsame : r.SameDelivery ((r₁.waitAnew now checked).clear now seen checked) :=
    ⟨hsettle.key.trans h.same.key, hsettle.fired.trans h.same.fired,
      hsettle.sent.trans h.same.sent⟩
  cases hactive : r₁.active with
  | true =>
    have hwait : r₁.waitAnew now checked = r₁ := by simp [AlertRow.waitAnew, hactive]
    rw [hwait] at hsame ⊢
    by_cases hclear : r₁.key ∉ seen ∧ r₁.source ∈ checked
    · have heq : r₁.clear now seen checked =
          { r₁ with active := false, clearSince := some (unix now) } := by
        simp [AlertRow.clear, hactive, hclear]
      rw [heq] at hsame ⊢
      exact .clear hsame rfl rfl
    · have heq : r₁.clear now seen checked = r₁ := by
        simp only [AlertRow.clear, hactive, Bool.true_and, Bool.and_eq_true, decide_eq_true_eq]
        exact if_neg hclear
      rw [heq] at hsame ⊢
      exact .on hsame hactive
  | false =>
    -- The condition was not seen, so the row is the old one.
    have hunseen : r.key ∉ seen := fun hk => by simp [h.on hk] at hactive
    have hr : r₁ = r := h.kept hunseen
    subst hr
    by_cases hwait : r₁.sentState = .firing ∧ r₁.source ∉ checked
    · have heq : (r₁.waitAnew now checked).clear now seen checked =
          { r₁ with clearSince := some (unix now) } := by
        simp [AlertRow.waitAnew, AlertRow.clear, hactive, hwait]
      rw [heq] at hsame ⊢
      exact .clear hsame hactive rfl
    · have hstay : r₁.waitAnew now checked = r₁ := by
        simp only [AlertRow.waitAnew, hactive, Bool.not_false, Bool.true_and, Bool.and_eq_true,
          decide_eq_true_eq]
        exact if_neg hwait
      have heq : (r₁.waitAnew now checked).clear now seen checked = r₁ := by
        rw [hstay]
        simp [AlertRow.clear, hactive]
      rw [heq]
      exact .quiet hactive hunseen (fun hfiring => by
        by_contra hnot
        exact hwait ⟨hfiring, hnot⟩)

theorem unix_sub_forgetAfter (now : Instant) :
    unix (now - alertForgetAfter) = unix now - 2592000 := by
  simp only [unix, alertForgetAfter, hour, second]
  omega

theorem unix_sub_repeat (now : Instant) : unix (now - alertRepeat) = unix now - 86400 := by
  simp only [unix, alertRepeat, hour, second]
  omega

theorem unix_sub_clearAfter (now : Instant) :
    unix (now - alertClearAfter) = unix now - 600 := by
  simp only [unix, alertClearAfter, second]
  omega

namespace AlertTables

variable {active : List AlertCondition} {checked : List String} {now : Instant} {t : AlertTables}

theorem nodup_reconcile (h : (t.conditions.map AlertRow.key).Nodup) :
    ((t.reconcileAlerts active checked now).conditions.map AlertRow.key).Nodup := by
  have hseen : ((seeAll active now t.conditions).map AlertRow.key).Nodup := nodup_seeAll h
  refine List.Nodup.sublist (List.Sublist.map AlertRow.key List.filter_sublist) ?_
  rw [List.map_map]
  have hkeys : AlertRow.key ∘ (fun r : AlertRow =>
      (r.waitAnew now checked).clear now (active.map AlertCondition.key) checked) =
      AlertRow.key := by
    funext r
    exact (AlertRow.sameDelivery_settle now _ checked r).key
  rw [hkeys]
  exact hseen

/-- Every row after a pass is new to the receiver or comes from an earlier one. -/
theorem reconcile_origin {r' : AlertRow}
    (h : r' ∈ (t.reconcileAlerts active checked now).conditions) :
    r'.Fresh ∨
      ∃ r ∈ t.conditions, r.Passed now (active.map AlertCondition.key) checked r' := by
  obtain ⟨hmap, -⟩ := List.mem_filter.mp h
  obtain ⟨r₁, hr₁, rfl⟩ := List.mem_map.mp hmap
  rcases seeAll_origin hr₁ with ⟨r, hr, hseen⟩ | hfresh
  · exact Or.inr ⟨r, hr, hseen.passed⟩
  · have hsame := AlertRow.sameDelivery_settle now (active.map AlertCondition.key) checked r₁
    exact Or.inl ⟨hsame.fired.trans hfresh.fired, hsame.sent.trans hfresh.sent⟩

/-- A pass keeps every row but those long over. -/
theorem reconcile_keeps (hnodup : (t.conditions.map AlertRow.key).Nodup) {r : AlertRow}
    (h : r ∈ t.conditions) :
    r.Forgotten now ∨ ∃ r' ∈ (t.reconcileAlerts active checked now).conditions,
      r.Passed now (active.map AlertCondition.key) checked r' := by
  obtain ⟨r₁, hr₁, hseen⟩ : ∃ r₁ ∈ seeAll active now t.conditions,
      AlertRow.Seen (active.map AlertCondition.key) r r₁ := seeAll_keeps hnodup h
  have hpassed : r.Passed now _ checked _ := hseen.passed
  generalize hr' : (r₁.waitAnew now checked).clear now (active.map AlertCondition.key) checked
    = r' at hpassed
  by_cases hgone : r'.Forgotten now
  · refine Or.inl ?_
    cases hpassed with
    | on _ hactive => simp [hgone.1] at hactive
    | clear _ _ hsince =>
      obtain ⟨-, -, c, hc, hlt⟩ := hgone
      rw [hsince, Option.mem_some_iff] at hc
      rw [unix_sub_forgetAfter] at hlt
      omega
    | quiet _ _ _ => exact hgone
  · exact Or.inr ⟨r', List.mem_filter.mpr
      ⟨List.mem_map.mpr ⟨r₁, hr₁, hr'⟩, by simpa using hgone⟩, hpassed⟩

end AlertTables

end Pgfy
