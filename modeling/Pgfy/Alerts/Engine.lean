import Pgfy.Store.Alerts

/-! # The alert engine

    A pass records the conditions that are on and then delivers what is due. A
    receiver change and a delivery pass exclude each other, but a change can come
    between the two halves of a pass. The log says, newest first, what the passes
    saw, what the receiver took and when the receiver changed.
-/

namespace Pgfy

open Calendar

/-- How the delivery of a message ends. -/
inductive Delivery where
  /-- The receiver took it, and the store recorded so or failed to. -/
  | delivered (recorded : Bool)
  /-- The receiver answered with an error status. -/
  | rejected (status : ℕ)
  /-- No answer. -/
  | failed
deriving DecidableEq

/-- The messages after this one are still tried: the receiver is up. -/
def Delivery.goesOn : Delivery → Bool
  | .delivered _ => true
  | .rejected status => status ≠ 429 && status < 500
  | .failed => false

/-- An entry of the log. -/
inductive AlertNote where
  /-- A pass recorded what it saw and which sources it checked. -/
  | pass (now : Instant) (seen checked : List String)
  /-- The receiver took a message; the condition's source is the recorded one. -/
  | sent (now : Instant) (o : Outgoing) (source : Option String)
  /-- The receiver changed, with the conditions as they were. -/
  | changed (before : List AlertRow)
deriving DecidableEq

structure AlertSystem where
  tables : AlertTables := {}
  /-- The webhook's address; empty while none is set. -/
  url : String := ""
  /-- The time of a pass that has recorded and not yet delivered. -/
  pending : Option Instant := none
  clock : Instant
  log : List AlertNote := []
deriving DecidableEq

namespace AlertSystem

/-- The first half of `Tick`: what was evaluated is recorded. -/
def record (active : List AlertCondition) (checked : List String) (now : Instant)
    (s : AlertSystem) : AlertSystem :=
  { s with
    tables := s.tables.reconcileAlerts active checked now
    pending := some now
    clock := now
    log := .pass now (active.map AlertCondition.key) checked :: s.log }

/-- One message and how its delivery ends. -/
def deliver (now : Instant) (o : Outgoing) (s : AlertSystem) : Delivery → AlertSystem
  | .delivered recorded =>
    { s with
      tables := if recorded then s.tables.markAlertSent o now else s.tables
      log := .sent now o (s.tables.sourceOf o.key) :: s.log }
  | _ => { s with tables := s.tables.alertAttemptFailed o }

/-- Delivers message after message, until one fails or time is up, which is
    where the outcomes end. -/
def deliverAll (now : Instant) : List Outgoing → List Delivery → AlertSystem → AlertSystem
  | o :: os, d :: ds, s =>
    if d.goesOn then deliverAll now os ds (s.deliver now o d) else s.deliver now o d
  | _, _, s => s

/-- The second half of `Tick`. Nothing is delivered while no webhook is set. -/
def send (now : Instant) (outcomes : List Delivery) (s : AlertSystem) : AlertSystem :=
  let sent :=
    if s.url = "" then s else s.deliverAll now (s.tables.alertsToSend now) outcomes
  { sent with pending := none }

/-- Saves the webhook settings. The address before counts as empty if the
    stored settings could not be read. -/
def saveWebhook (url : String) (unread : Bool) (s : AlertSystem) : AlertSystem :=
  let previous := if unread then "" else s.url
  if previous ≠ url then
    { s with
      tables := s.tables.resetDelivery, url := url,
      log := .changed s.tables.conditions :: s.log }
  else { s with url := url }

/-- A one-shot event, recorded by the change that it reports. -/
def event (kind key summary detail : String) (now : Instant) (s : AlertSystem) : AlertSystem :=
  { s with tables := s.tables.recordEvent kind key summary detail now }

end AlertSystem

/-- A step of the engine. The clock moves as `ticks` allows; `lossy` says
    whether a delivery may go unrecorded. -/
inductive AlertStep (ticks : Instant → Instant → Prop) (lossy : Prop) :
    AlertSystem → AlertSystem → Prop where
  | record {s} (active checked now) (idle : s.pending = none) (time : ticks s.clock now) :
      AlertStep ticks lossy s (s.record active checked now)
  | send {s} (now outcomes) (pending : s.pending = some now)
      (kept : lossy ∨ Delivery.delivered false ∉ outcomes) :
      AlertStep ticks lossy s (s.send now outcomes)
  /-- A pass ends without deliveries: an error, or the end of the process. -/
  | abandon {s} : AlertStep ticks lossy s { s with pending := none }
  | save {s} (url unread) : AlertStep ticks lossy s (s.saveWebhook url unread)
  | event {s} (kind key summary detail now) :
      AlertStep ticks lossy s (s.event kind key summary detail now)

/-- The states of runs from an installation's first start. -/
inductive AlertRun (ticks : Instant → Instant → Prop) (lossy : Prop) : AlertSystem → Prop where
  | start (clock) : AlertRun ticks lossy { clock := clock }
  | step {s s'} (run : AlertRun ticks lossy s) (step : AlertStep ticks lossy s s') :
      AlertRun ticks lossy s'

/-- What holds at the start and is kept by each step holds in every run. -/
theorem AlertRun.invariant {ticks : Instant → Instant → Prop} {lossy : Prop}
    {I : AlertSystem → Prop} (hstart : ∀ clock, I { clock := clock })
    (hstep : ∀ s s', I s → AlertStep ticks lossy s s' → I s') {s : AlertSystem}
    (h : AlertRun ticks lossy s) : I s := by
  induction h with
  | start clock => exact hstart clock
  | step _ step ih => exact hstep _ _ ih step

/-! ### The log since the last receiver change -/

/-- Notes of a receiver change. -/
def AlertNote.isChange : AlertNote → Bool
  | .changed _ => true
  | _ => false

/-- The part of a log since the last receiver change. -/
def sinceChange (log : List AlertNote) : List AlertNote :=
  log.takeWhile (fun n => !n.isChange)

@[simp] theorem sinceChange_pass (now : Instant) (seen checked : List String)
    (log : List AlertNote) :
    sinceChange (.pass now seen checked :: log) = .pass now seen checked :: sinceChange log :=
  rfl

@[simp] theorem sinceChange_sent (now : Instant) (o : Outgoing) (source : Option String)
    (log : List AlertNote) :
    sinceChange (.sent now o source :: log) = .sent now o source :: sinceChange log := rfl

@[simp] theorem sinceChange_changed (before : List AlertRow) (log : List AlertNote) :
    sinceChange (.changed before :: log) = [] := rfl

theorem mem_of_mem_sinceChange {n : AlertNote} {log : List AlertNote} (h : n ∈ sinceChange log) :
    n ∈ log :=
  (List.takeWhile_prefix _).subset h

end Pgfy
