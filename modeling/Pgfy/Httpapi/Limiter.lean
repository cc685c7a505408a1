import Pgfy.Framework.Window
import Pgfy.Store.Auth

/-! # The limits on sign-in attempts

    Attempts are limited for each client and over all clients, both in fixed
    windows. A client's window begins with the first attempt it is granted; the
    window over all clients is begun by whichever attempt finds the last one over,
    granted or not. Clients whose window is over are swept from the table on the way.

    `Limited` ties the limiter to the attempts it granted. One call keeps it
    (`Limited.call`), so a whole history does (`Limited.serve`).
-/

namespace Pgfy

open Calendar Storage FixedWindow

variable {κ : Type} [DecidableEq κ]

/-! ### The limiter -/

/-- The windows of the clients, and the one over all of them. -/
structure RateLimit (κ : Type) where
  clients : List (κ × Bucket) := []
  global : Bucket := { ends := ofUnix zeroTime }

namespace RateLimit

/-- The window that is kept for a client: a zero one if there is none. -/
def bucket (l : RateLimit κ) (key : κ) : Bucket :=
  match Table.find Prod.fst key l.clients with
  | some (_, b) => b
  | none => { ends := ofUnix zeroTime }

def sweep (now : Instant) (clients : List (κ × Bucket)) : List (κ × Bucket) :=
  clients.filter (fun c => now < c.2.ends)

def allow (l : RateLimit κ) (key : κ) (now : Instant) : Bool × RateLimit κ :=
  let global := l.global.current minute now
  let b := (l.bucket key).current (15 * minute) now
  let clients := sweep now l.clients
  if global.count ≥ 30 ∨ b.count ≥ 10 ∨ clients.length ≥ 10000 then (false, { clients, global })
  else
    (true, {
      clients := Table.upsert Prod.fst key (fun _ => (key, b.grant)) clients
      global := global.grant })

/-- How much a client may still be granted in its window, as of a time. -/
def remaining (l : RateLimit κ) (key : κ) (now : Instant) : ℕ :=
  10 - ((l.bucket key).current (15 * minute) now).count

end RateLimit

/-- A limiter and the calls it granted, the last one first. -/
structure Served (κ : Type) where
  limit : RateLimit κ := {}
  granted : List (κ × Instant) := []

/-- One call of `allow`, by a client at a time. -/
def Served.call (s : Served κ) (c : κ × Instant) : Served κ :=
  let (ok, limit) := s.limit.allow c.1 c.2
  { limit, granted := if ok then c :: s.granted else s.granted }

/-- A history of calls. -/
def Served.serve (s : Served κ) (calls : List (κ × Instant)) : Served κ := calls.foldl call s

/-- A history from the start of the process. -/
def served (calls : List (κ × Instant)) : Served κ := Served.serve {} calls

/-! ### The table of clients -/

namespace RateLimit

omit [DecidableEq κ] in
theorem mem_sweep {now : Instant} {clients : List (κ × Bucket)} {c : κ × Bucket} :
    c ∈ sweep now clients ↔ c ∈ clients ∧ now < c.2.ends := by
  simp [sweep]

omit [DecidableEq κ] in
theorem sweep_sweep {now later : Instant} (h : now ≤ later) (clients : List (κ × Bucket)) :
    sweep later (sweep now clients) = sweep later clients := by
  unfold sweep
  rw [List.filter_filter]
  apply List.filter_congr
  intro c _
  by_cases hc : later < c.2.ends
  · simp [hc, lt_of_le_of_lt h hc]
  · simp [hc]

omit [DecidableEq κ] in
theorem nodup_sweep {clients : List (κ × Bucket)} (h : (clients.map Prod.fst).Nodup)
    (now : Instant) : ((sweep now clients).map Prod.fst).Nodup :=
  h.sublist (List.Sublist.map _ List.filter_sublist)

theorem bucket_of_find {l : RateLimit κ} {key : κ} {b : Bucket}
    (h : Table.find Prod.fst key l.clients = some (key, b)) : l.bucket key = b := by
  unfold bucket
  rw [h]

theorem bucket_of_none {l : RateLimit κ} {key : κ}
    (h : Table.find Prod.fst key l.clients = none) :
    l.bucket key = { ends := ofUnix zeroTime } := by
  unfold bucket
  rw [h]

/-- A client whose window lasts is still found after the sweep. -/
theorem find_sweep_of_lt {clients : List (κ × Bucket)} (hn : (clients.map Prod.fst).Nodup)
    {key : κ} {b : Bucket} (h : Table.find Prod.fst key clients = some (key, b))
    {now : Instant} (hlast : now < b.ends) :
    Table.find Prod.fst key (sweep now clients) = some (key, b) :=
  Table.find_of_mem (nodup_sweep hn now)
    (r := (key, b)) (mem_sweep.mpr ⟨(Table.find_eq_some h).1, hlast⟩)

/-- A client that is not found after the sweep was not there, or its window is over. -/
theorem find_sweep_none {clients : List (κ × Bucket)} (hn : (clients.map Prod.fst).Nodup)
    {key : κ} {b : Bucket} (h : Table.find Prod.fst key clients = some (key, b))
    {now : Instant} (hover : b.ends ≤ now) :
    Table.find Prod.fst key (sweep now clients) = none := by
  rw [Table.find_eq_none]
  intro c hc hkey
  obtain ⟨hmem, hlast⟩ := mem_sweep.mp hc
  have hfound := Table.find_of_mem hn hmem
  rw [hkey, h, Option.some.injEq] at hfound
  rw [← hfound] at hlast
  exact absurd hlast (not_lt.mpr hover)

theorem find_sweep_of_none {clients : List (κ × Bucket)} {key : κ}
    (h : Table.find Prod.fst key clients = none) (now : Instant) :
    Table.find Prod.fst key (sweep now clients) = none := by
  rw [Table.find_eq_none] at h ⊢
  exact fun c hc => h c (mem_sweep.mp hc).1

theorem length_upsert_le (key : κ) (f : Option (κ × Bucket) → κ × Bucket)
    (clients : List (κ × Bucket)) :
    (Table.upsert Prod.fst key f clients).length ≤ clients.length + 1 := by
  unfold Table.upsert
  split
  · simp [Table.modify]
  · simp

/-- What a call does: it is refused, and nothing but the sweep and the window over
    all clients has changed; or it is granted and counted in both windows. -/
theorem allow_cases (l : RateLimit κ) (key : κ) (now : Instant) :
    ((l.global.current minute now).count ≥ 30 ∨
        ((l.bucket key).current (15 * minute) now).count ≥ 10 ∨
        (sweep now l.clients).length ≥ 10000) ∧
      l.allow key now =
        (false, { clients := sweep now l.clients, global := l.global.current minute now }) ∨
    ((l.global.current minute now).count < 30 ∧
        ((l.bucket key).current (15 * minute) now).count < 10 ∧
        (sweep now l.clients).length < 10000) ∧
      l.allow key now = (true, {
        clients := Table.upsert Prod.fst key
          (fun _ => (key, ((l.bucket key).current (15 * minute) now).grant)) (sweep now l.clients)
        global := (l.global.current minute now).grant }) := by
  by_cases h : (l.global.current minute now).count ≥ 30 ∨
      ((l.bucket key).current (15 * minute) now).count ≥ 10 ∨
      (sweep now l.clients).length ≥ 10000
  · exact .inl ⟨h, if_pos h⟩
  · refine .inr ⟨?_, if_neg h⟩
    omega

end RateLimit

/-! ### The limiter and what it granted -/

/-- The times at which a client was granted a call. -/
def timesOf (key : κ) (granted : List (κ × Instant)) : List Instant :=
  (granted.filter (fun c => c.1 = key)).map Prod.snd

/-- A window is true to the calls a client was granted: the one that is kept, or
    the last one it had, which is over. -/
def Tracked (l : RateLimit κ) (key : κ) (times : List Instant) (now : Instant) : Prop :=
  ∃ b : Bucket, ofUnix zeroTime ≤ b.ends ∧ Tracks (15 * minute) 10 b times now ∧
    (Table.find Prod.fst key l.clients = some (key, b) ∨
      Table.find Prod.fst key l.clients = none ∧ (b.ends ≤ now ∨ times = []))

/-- The limiter is true to the calls it granted. -/
structure Limited (s : Served κ) (now : Instant) : Prop where
  keys : (s.limit.clients.map Prod.fst).Nodup
  size : s.limit.clients.length ≤ 10000
  total : Tracks minute 30 s.limit.global (s.granted.map Prod.snd) now
  each : ∀ key, Tracked s.limit key (timesOf key s.granted) now

theorem Limited.initial (now : Instant) : Limited ({} : Served κ) now where
  keys := List.nodup_nil
  size := Nat.zero_le _
  total := Tracks.fresh _ _ _ _
  each := fun _ =>
    ⟨{ ends := ofUnix zeroTime }, le_refl _, Tracks.fresh _ _ _ _, .inr ⟨rfl, .inr rfl⟩⟩

section

variable {l : RateLimit κ} {key : κ} {times : List Instant} {now later : Instant}

/-- The window a call is counted in is true to the calls before it. -/
theorem Tracked.current (h : Tracked l key times now) (hnow : now ≤ later) :
    ofUnix zeroTime ≤ ((l.bucket key).current (15 * minute) later).ends ∧
      Tracks (15 * minute) 10 ((l.bucket key).current (15 * minute) later) times later := by
  have hwidth : 0 < 15 * minute := by decide
  obtain ⟨b, hzero, htracks, hfound | ⟨hnone, hover | hempty⟩⟩ := h
  · rw [RateLimit.bucket_of_find hfound]
    exact ⟨hzero.trans (b.ends_le_current hwidth later), (htracks.later hnow).current hwidth⟩
  · -- the last window is over, so a new one begins whatever the zero one says
    have hends : b.ends ≤ later := hover.trans hnow
    have hcurrent := (htracks.later hnow).current hwidth
    rw [Bucket.current_of_le hends] at hcurrent
    rw [RateLimit.bucket_of_none hnone, Bucket.current_of_le (hzero.trans hends)]
    refine ⟨?_, hcurrent⟩
    show ofUnix zeroTime ≤ later + 15 * minute
    have hpast : ofUnix zeroTime ≤ later := hzero.trans hends
    exact hpast.trans (le_add_of_nonneg_right hwidth.le)
  · rw [RateLimit.bucket_of_none hnone, hempty]
    exact ⟨Bucket.ends_le_current hwidth _ later,
      (Tracks.fresh (15 * minute) 10 (ofUnix zeroTime) later).current hwidth⟩

/-- The sweep drops windows that are over, and nothing else. -/
theorem Tracked.swept (h : Tracked l key times now) (hnow : now ≤ later)
    (hn : (l.clients.map Prod.fst).Nodup) (global : Bucket) :
    Tracked { clients := RateLimit.sweep later l.clients, global } key times later := by
  obtain ⟨b, hzero, htracks, hfound | ⟨hnone, hover⟩⟩ := h
  · refine ⟨b, hzero, htracks.later hnow, ?_⟩
    by_cases hlast : later < b.ends
    · exact .inl (RateLimit.find_sweep_of_lt hn hfound hlast)
    · have hends : b.ends ≤ later := not_lt.mp hlast
      exact .inr ⟨RateLimit.find_sweep_none hn hfound hends, .inl hends⟩
  · exact ⟨b, hzero, htracks.later hnow,
      .inr ⟨RateLimit.find_sweep_of_none hnone later, hover.imp_left (·.trans hnow)⟩⟩

end

variable {s : Served κ} {now later : Instant}

/-- One call keeps the limiter true to what it granted. -/
theorem Limited.call (h : Limited s now) {c : κ × Instant} (hnow : now ≤ c.2) :
    Limited (s.call c) c.2 := by
  obtain ⟨key, at_⟩ := c
  simp only at hnow
  have hminute : 0 < minute := by decide
  have htotal := (h.total.later hnow).current hminute
  have hkeys := RateLimit.nodup_sweep h.keys at_
  obtain ⟨-, hrefused⟩ | ⟨⟨hglobal, hbucket, hsize⟩, hgranted⟩ := s.limit.allow_cases key at_
  · have hcall : s.call (key, at_) = { s with limit := {
        clients := RateLimit.sweep at_ s.limit.clients
        global := s.limit.global.current minute at_ } } := by
      simp [Served.call, hrefused]
    rw [hcall]
    exact {
      keys := hkeys
      size := (List.length_filter_le _ _).trans h.size
      total := htotal
      each := fun k => (h.each k).swept hnow h.keys _ }
  · generalize hb : (s.limit.bucket key).current (15 * minute) at_ = b at hbucket hgranted
    generalize hclients : Table.upsert Prod.fst key (fun _ => (key, b.grant))
      (RateLimit.sweep at_ s.limit.clients) = clients at hgranted
    have hcall : s.call (key, at_) = {
        limit := { clients, global := (s.limit.global.current minute at_).grant }
        granted := (key, at_) :: s.granted } := by
      simp [Served.call, hgranted]
    have hnodup : (clients.map Prod.fst).Nodup := by
      rw [← hclients]
      exact Table.nodup_upsert rfl hkeys
    have hlength : clients.length ≤ 10000 := by
      rw [← hclients]
      exact (RateLimit.length_upsert_le _ _ _).trans hsize
    have hself : Table.find Prod.fst key clients = some (key, b.grant) := by
      rw [← hclients]
      exact Table.find_upsert_self rfl
    rw [hcall]
    refine ⟨hnodup, hlength, ?_, ?_⟩
    · exact htotal.grant (Bucket.lt_ends_current hminute _ _) hglobal
    · intro k
      by_cases hk : k = key
      · obtain ⟨hzero, htracks⟩ := (h.each key).current hnow
        have htimes : timesOf k ((key, at_) :: s.granted) = at_ :: timesOf key s.granted := by
          simp [timesOf, hk]
        rw [htimes, hk]
        rw [hb] at hzero htracks
        have hlast : at_ < b.ends := hb ▸ Bucket.lt_ends_current (by decide) _ _
        exact ⟨b.grant, hzero, htracks.grant hlast hbucket, .inl hself⟩
      · have htimes : timesOf k ((key, at_) :: s.granted) = timesOf k s.granted := by
          simp [timesOf, Ne.symm hk]
        obtain ⟨b', hzero, htracks, hfind⟩ :=
          (h.each k).swept hnow h.keys (s.limit.global.current minute at_)
        rw [htimes]
        refine ⟨b', hzero, htracks, ?_⟩
        rw [← hclients, Table.find_upsert_of_ne rfl hk]
        exact hfind

theorem Limited.wait (h : Limited s now) (hnow : now ≤ later) : Limited s later where
  keys := h.keys
  size := h.size
  total := h.total.later hnow
  each := fun key => by
    obtain ⟨b, hzero, htracks, hfind⟩ := h.each key
    exact ⟨b, hzero, htracks.later hnow,
      hfind.imp_right (fun hnone => ⟨hnone.1, hnone.2.imp_left (·.trans hnow)⟩)⟩

/-- A history of calls at times that do not decrease keeps it. -/
theorem Limited.serve : ∀ (calls : List (κ × Instant)) {s : Served κ} {now : Instant},
    Limited s now → calls.Pairwise (fun c c' => c.2 ≤ c'.2) → (∀ c ∈ calls, now ≤ c.2) →
    ∀ {later : Instant}, now ≤ later → (∀ c ∈ calls, c.2 ≤ later) →
      Limited (s.serve calls) later := by
  intro calls
  induction calls with
  | nil => exact fun h _ _ _ hlater _ => h.wait hlater
  | cons c rest ih =>
    intro s now h hordered hnow later _ hlater
    obtain ⟨hfirst, hrest⟩ := List.pairwise_cons.mp hordered
    exact ih (h.call (hnow c List.mem_cons_self)) hrest hfirst (hlater c List.mem_cons_self)
      (fun c' hc' => hlater c' (List.mem_cons_of_mem _ hc'))

/-- From the start no time is too early: the limiter has granted nothing. -/
theorem limited_serve {calls : List (κ × Instant)}
    (hordered : calls.Pairwise (fun c c' => c.2 ≤ c'.2)) (hlater : ∀ c ∈ calls, c.2 ≤ later) :
    Limited (served calls) later := by
  cases calls with
  | nil => exact Limited.initial later
  | cons c rest =>
    obtain ⟨hfirst, -⟩ := List.pairwise_cons.mp hordered
    refine Limited.serve (c :: rest) (Limited.initial c.2) hordered ?_
      (hlater c List.mem_cons_self) hlater
    intro c' hc'
    cases hc' with
    | head => exact le_refl _
    | tail _ hc' => exact hfirst c' hc'

/-! ### Refused calls -/

namespace RateLimit

variable {l l' : RateLimit κ} {key : κ}

/-- A window that lasts survives the sweep. -/
theorem bucket_sweep_of_lt (hn : (l.clients.map Prod.fst).Nodup) (hlast : now < (l.bucket key).ends)
    (global : Bucket) :
    ({ clients := sweep now l.clients, global } : RateLimit κ).bucket key = l.bucket key := by
  cases hfind : Table.find Prod.fst key l.clients with
  | none =>
    rw [bucket_of_none hfind]
    exact bucket_of_none (find_sweep_of_none hfind now)
  | some c =>
    obtain ⟨key', b⟩ := c
    have hkey : key' = key := (Table.find_eq_some hfind).2
    rw [hkey] at hfind
    rw [bucket_of_find hfind] at hlast ⊢
    exact bucket_of_find (find_sweep_of_lt hn hfind hlast)

/-- The sweep takes nothing from what a client may still be granted: the window it
    drops is over. -/
theorem remaining_sweep (hn : (l.clients.map Prod.fst).Nodup) (hlater : now ≤ later)
    (global : Bucket) :
    ({ clients := sweep now l.clients, global } : RateLimit κ).remaining key later =
      l.remaining key later := by
  by_cases hlast : now < (l.bucket key).ends
  · unfold remaining
    rw [bucket_sweep_of_lt hn hlast]
  · have hends : (l.bucket key).ends ≤ now := not_lt.mp hlast
    have hnone : Table.find Prod.fst key (sweep now l.clients) = none := by
      cases hfind : Table.find Prod.fst key l.clients with
      | none => exact find_sweep_of_none hfind now
      | some c =>
        obtain ⟨key', b⟩ := c
        have hkey : key' = key := (Table.find_eq_some hfind).2
        rw [hkey] at hfind
        rw [bucket_of_find hfind] at hends
        exact find_sweep_none hn hfind hends
    have hzero := Bucket.count_current_le (15 * minute) { ends := ofUnix zeroTime } later
    unfold remaining
    rw [bucket_of_none (l := { clients := sweep now l.clients, global }) hnone,
      Bucket.current_of_le (hends.trans hlater), Nat.le_zero.mp hzero]

/-- Two limiters that treat the calls of one client alike while its window lasts:
    the windows that last are the same, and the window over all clients is the same
    too or counts no more than the client's own. -/
structure SameFor (key : κ) (now : Instant) (l l' : RateLimit κ) : Prop where
  keys : (l.clients.map Prod.fst).Nodup
  keys' : (l'.clients.map Prod.fst).Nodup
  swept : sweep now l.clients = sweep now l'.clients
  bucket : l.bucket key = l'.bucket key
  global : l.global = l'.global ∨ ∀ later, now ≤ later →
    (l.global.current minute later).count ≤ (l.bucket key).count ∧
      (l'.global.current minute later).count ≤ (l.bucket key).count

/-- A refused call leaves a limiter that treats every client as before. -/
theorem SameFor.of_refused (hn : (l.clients.map Prod.fst).Nodup)
    (hlast : now < (l.bucket key).ends) :
    SameFor key now l
      { clients := sweep now l.clients, global := l.global.current minute now } where
  keys := hn
  keys' := nodup_sweep hn now
  swept := (sweep_sweep (le_refl now) _).symm
  bucket := (bucket_sweep_of_lt hn hlast _).symm
  global := by
    by_cases hglobal : now < l.global.ends
    · exact .inl (Bucket.current_of_lt hglobal).symm
    · refine .inr (fun later hlater => ?_)
      have hends : l.global.ends ≤ now := not_lt.mp hglobal
      have hfresh := Bucket.count_current_le minute { ends := now + minute } later
      rw [Bucket.current_of_le hends, Bucket.current_of_le (hends.trans hlater)]
      exact ⟨Nat.zero_le _, hfresh.trans (Nat.zero_le _)⟩

/-- A window over all clients that counts no more than the client's own is never
    what refuses it. -/
theorem SameFor.global_full (h : SameFor key now l l') (hlater : now ≤ later)
    (hroom : (l.bucket key).count < 10) :
    (l.global.current minute later).count ≥ 30 ↔ (l'.global.current minute later).count ≥ 30 := by
  obtain hsame | hfew := h.global
  · rw [hsame]
  · obtain ⟨hl, hl'⟩ := hfew later hlater
    omega

/-- One call of the client while its window lasts. -/
theorem SameFor.allow (h : SameFor key now l l') (hlater : now ≤ later)
    (hlast : later < (l.bucket key).ends) :
    (l.allow key later).1 = (l'.allow key later).1 ∧
      SameFor key later (l.allow key later).2 (l'.allow key later).2 ∧
      ((l.allow key later).2.bucket key).ends = (l.bucket key).ends := by
  have hswept : sweep later l.clients = sweep later l'.clients := by
    rw [← sweep_sweep hlater, h.swept, sweep_sweep hlater]
  have hb : (l.bucket key).current (15 * minute) later = l.bucket key :=
    Bucket.current_of_lt hlast
  have hb' : (l'.bucket key).current (15 * minute) later = l.bucket key := by
    rw [← h.bucket, hb]
  have hkeys := nodup_sweep h.keys later
  have hl := l.allow_cases key later
  have hl' := l'.allow_cases key later
  rw [hb] at hl
  rw [hb', ← hswept] at hl'
  obtain ⟨hfull, hrefused⟩ | ⟨hroom, hgranted⟩ := hl
  · obtain ⟨-, hrefused'⟩ | ⟨hroom', -⟩ := hl'
    · rw [hrefused, hrefused']
      have hbucket := bucket_sweep_of_lt h.keys hlast (l.global.current minute later)
      refine ⟨rfl, ⟨hkeys, hkeys, rfl, rfl, ?_⟩, congrArg Bucket.ends hbucket⟩
      rw [hbucket]
      obtain hsame | hfew := h.global
      · exact .inl (congrArg (Bucket.current minute · later) hsame)
      · refine .inr (fun u _ => ?_)
        obtain ⟨hc, hc'⟩ := hfew later hlater
        exact ⟨(Bucket.count_current_le minute _ u).trans hc,
          (Bucket.count_current_le minute _ u).trans hc'⟩
    · have := h.global_full hlater hroom'.2.1
      omega
  · obtain ⟨hfull', -⟩ | ⟨-, hgranted'⟩ := hl'
    · have := h.global_full hlater hroom.2.1
      omega
    · rw [hgranted, hgranted']
      have hnodup : ((Table.upsert Prod.fst key (fun _ => (key, (l.bucket key).grant))
          (sweep later l.clients)).map Prod.fst).Nodup := Table.nodup_upsert rfl hkeys
      have hself : Table.find Prod.fst key (Table.upsert Prod.fst key
          (fun _ => (key, (l.bucket key).grant)) (sweep later l.clients)) =
            some (key, (l.bucket key).grant) := Table.find_upsert_self rfl
      generalize Table.upsert Prod.fst key (fun _ => (key, (l.bucket key).grant))
        (sweep later l.clients) = clients at hnodup hself ⊢
      have hbucket := bucket_of_find
        (l := { clients, global := (l.global.current minute later).grant }) hself
      refine ⟨rfl, ⟨hnodup, hnodup, rfl, rfl, ?_⟩, (congrArg Bucket.ends hbucket).trans rfl⟩
      rw [hbucket]
      obtain hsame | hfew := h.global
      · exact .inl (congrArg (fun g => (Bucket.current minute g later).grant) hsame)
      · refine .inr (fun u _ => ?_)
        obtain ⟨hc, hc'⟩ := hfew later hlater
        exact ⟨(Bucket.count_current_le minute _ u).trans (Nat.succ_le_succ hc),
          (Bucket.count_current_le minute _ u).trans (Nat.succ_le_succ hc')⟩

/-- All calls of the client while its window lasts. -/
theorem SameFor.serve : ∀ (times : List Instant) {l l' : RateLimit κ} {now : Instant}
    (granted : List (κ × Instant)), SameFor key now l l' → times.Pairwise (· ≤ ·) →
    (∀ t ∈ times, now ≤ t ∧ t < (l.bucket key).ends) →
    (Served.serve { limit := l, granted } (times.map (fun t => (key, t)))).granted =
      (Served.serve { limit := l', granted } (times.map (fun t => (key, t)))).granted := by
  intro times
  induction times with
  | nil => exact fun _ _ _ _ => rfl
  | cons t rest ih =>
    intro l l' now granted h hordered hlast
    obtain ⟨hfirst, hrest⟩ := List.pairwise_cons.mp hordered
    obtain ⟨hnow, hends⟩ := hlast t List.mem_cons_self
    obtain ⟨hanswer, hsame, hkeep⟩ := h.allow hnow hends
    have hnext := ih (if (l.allow key t).1 then (key, t) :: granted else granted) hsame hrest
      (fun u hu => ⟨hfirst u hu, hkeep ▸ (hlast u (List.mem_cons_of_mem _ hu)).2⟩)
    have hgranted : (if (l'.allow key t).1 then (key, t) :: granted else granted) =
        if (l.allow key t).1 then (key, t) :: granted else granted := by
      rw [hanswer]
    calc (Served.serve { limit := l, granted } ((t :: rest).map (fun t => (key, t)))).granted
        = (Served.serve
            { limit := (l.allow key t).2,
              granted := if (l.allow key t).1 then (key, t) :: granted else granted }
            (rest.map (fun t => (key, t)))).granted := rfl
      _ = (Served.serve
            { limit := (l'.allow key t).2,
              granted := if (l.allow key t).1 then (key, t) :: granted else granted }
            (rest.map (fun t => (key, t)))).granted := hnext
      _ = (Served.serve { limit := l', granted }
          ((t :: rest).map (fun t => (key, t)))).granted := by
        rw [← hgranted]
        rfl

end RateLimit

/-! ### The limits -/

omit [DecidableEq κ] in
theorem countP_times (granted : List (κ × Instant)) (start stop : Instant) :
    granted.countP (fun c => start ≤ c.2 ∧ c.2 ≤ stop) =
      within start stop (granted.map Prod.snd) := by
  rw [within, List.countP_map]
  rfl

theorem countP_timesOf (key : κ) (granted : List (κ × Instant)) (start stop : Instant) :
    granted.countP (fun c => c.1 = key ∧ start ≤ c.2 ∧ c.2 ≤ stop) =
      within start stop (timesOf key granted) := by
  rw [timesOf, ← countP_times, List.countP_filter]
  apply List.countP_congr
  intro c _
  simp [and_comm]

omit [DecidableEq κ] in
theorem exists_later (calls : List (κ × Instant)) : ∃ later, ∀ c ∈ calls, c.2 ≤ later := by
  induction calls with
  | nil => exact ⟨0, by simp⟩
  | cons c rest ih =>
    obtain ⟨later, hlater⟩ := ih
    refine ⟨max c.2 later, ?_⟩
    intro c' hc'
    cases hc' with
    | head => exact le_max_left _ _
    | tail _ hc' => exact (hlater c' hc').trans (le_max_right _ _)

/-- The limits that hold over any history of calls whose times do not decrease: for
    each client in any interval shorter than its window, for all clients in any
    interval shorter than theirs, and for the table. A call that is refused takes
    nothing from any client: as much remains of its window, and whatever it asks for
    while the window lasts is granted as it would have been. -/
theorem attempts_limited (calls : List (κ × Instant))
    (h : calls.Pairwise (fun c c' => c.2 ≤ c'.2)) :
    (∀ key start stop, stop - start < 15 * minute →
      (served calls).granted.countP (fun c => c.1 = key ∧ start ≤ c.2 ∧ c.2 ≤ stop) ≤ 20) ∧
    (∀ start stop, stop - start < minute →
      (served calls).granted.countP (fun c => start ≤ c.2 ∧ c.2 ≤ stop) ≤ 60) ∧
    (served calls).limit.clients.length ≤ 10000 ∧
    ∀ caller now, (∀ c ∈ calls, c.2 ≤ now) →
      ((served calls).limit.allow caller now).1 = false → ∀ key,
      (∀ later, now ≤ later →
        ((served calls).limit.allow caller now).2.remaining key later =
          (served calls).limit.remaining key later) ∧
      ∀ times : List Instant, times.Pairwise (· ≤ ·) →
        (∀ t ∈ times, now ≤ t ∧ t < ((served calls).limit.bucket key).ends) →
        (Served.serve { limit := ((served calls).limit.allow caller now).2 }
            (times.map (fun t => (key, t)))).granted =
          (Served.serve { limit := (served calls).limit }
            (times.map (fun t => (key, t)))).granted := by
  obtain ⟨latest, hlatest⟩ := exists_later calls
  have hlimited := limited_serve h hlatest
  refine ⟨?_, ?_, hlimited.size, ?_⟩
  · intro key start stop hshort
    obtain ⟨b, -, htracks, -⟩ := hlimited.each key
    rw [countP_timesOf]
    exact htracks.within_le hshort
  · intro start stop hshort
    rw [countP_times]
    exact hlimited.total.within_le hshort
  · intro caller now hnow hrefused key
    have hkeys := hlimited.keys
    generalize (served calls).limit = l at hkeys hrefused ⊢
    obtain ⟨-, hallow⟩ | ⟨-, hgranted⟩ := l.allow_cases caller now
    · rw [hallow]
      refine ⟨fun later hlater => RateLimit.remaining_sweep hkeys hlater _, ?_⟩
      intro times hordered hlast
      cases times with
      | nil => rfl
      | cons t rest =>
        obtain ⟨hnow', hends⟩ := hlast t List.mem_cons_self
        have hsame := RateLimit.SameFor.of_refused hkeys (lt_of_le_of_lt hnow' hends)
        exact (hsame.serve (t :: rest) [] hordered hlast).symm
    · rw [hgranted] at hrefused
      cases hrefused

/-- Twelve attempts of one client at one time: ten are granted. -/
theorem attempts_limited_twelve :
    (List.replicate 12 ("203.0.113.7", (0 : Instant))).Pairwise (fun c c' => c.2 ≤ c'.2) ∧
      (served (List.replicate 12 ("203.0.113.7", (0 : Instant)))).granted.length = 10 ∧
      (served (List.replicate 12 ("203.0.113.7", (0 : Instant)))).granted.countP
        (fun c => c.1 = "203.0.113.7" ∧ -1 ≤ c.2 ∧ c.2 ≤ 1) ≤ 20 :=
  ⟨by decide, by decide +kernel,
    (attempts_limited (List.replicate 12 ("203.0.113.7", (0 : Instant))) (by decide)).1
      "203.0.113.7" (-1) 1 (by decide)⟩

end Pgfy
