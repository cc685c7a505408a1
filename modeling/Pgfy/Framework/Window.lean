import Mathlib

/-! # Counting in fixed windows

    A limiter that counts in fixed windows starts a window with the first event it
    lets through and counts up to a limit until the window ends. A limit per window
    is not a limit per interval: an interval shorter than a window can meet two of
    them. `Tracks` ties a counter to the times of the events it let through, and
    `Tracks.sliding` says what follows for every interval shorter than a window:
    at most twice the limit.
-/

namespace FixedWindow

/-- A counter: the events of a window, and when it ends. -/
structure Bucket where
  count : ℕ := 0
  ends : ℤ
deriving DecidableEq

/-- The window at a time: the one that lasts, or a new one. -/
def Bucket.current (width : ℤ) (b : Bucket) (now : ℤ) : Bucket :=
  if now < b.ends then b else { ends := now + width }

/-- One more event in the window. -/
def Bucket.grant (b : Bucket) : Bucket := { b with count := b.count + 1 }

theorem Bucket.current_of_lt {width : ℤ} {b : Bucket} {now : ℤ} (h : now < b.ends) :
    b.current width now = b := if_pos h

theorem Bucket.current_of_le {width : ℤ} {b : Bucket} {now : ℤ} (h : b.ends ≤ now) :
    b.current width now = { ends := now + width } := if_neg (not_lt.mpr h)

theorem Bucket.lt_ends_current {width : ℤ} (hwidth : 0 < width) (b : Bucket) (now : ℤ) :
    now < (b.current width now).ends := by
  unfold current
  split
  · assumption
  · show now < now + width
    omega

/-- The end of a window only moves on. -/
theorem Bucket.ends_le_current {width : ℤ} (hwidth : 0 < width) (b : Bucket) (now : ℤ) :
    b.ends ≤ (b.current width now).ends := by
  unfold current
  split
  · exact le_refl _
  · show b.ends ≤ now + width
    omega

/-- What a window counts never grows by waiting. -/
theorem Bucket.count_current_le (width : ℤ) (b : Bucket) (now : ℤ) :
    (b.current width now).count ≤ b.count := by
  unfold current
  split
  · exact le_refl _
  · exact Nat.zero_le _

variable {width : ℤ} {limit : ℕ} {b : Bucket} {times : List ℤ} {now start : ℤ}

/-- How many of the times lie in a closed interval. -/
def within (start stop : ℤ) (times : List ℤ) : ℕ :=
  times.countP (fun t => start ≤ t ∧ t ≤ stop)

theorem countP_le_add {α : Type} {p q r : α → Bool} {l : List α}
    (h : ∀ t ∈ l, p t = true → q t = true ∨ r t = true) :
    l.countP p ≤ l.countP q + l.countP r := by
  induction l with
  | nil => exact Nat.zero_le _
  | cons t l ih =>
    have hl := ih (fun u hu => h u (List.mem_cons_of_mem _ hu))
    have ht := h t List.mem_cons_self
    rw [List.countP_cons, List.countP_cons, List.countP_cons]
    cases hp : p t with
    | false => simp only [Bool.false_eq_true, if_false]; omega
    | true =>
      obtain hq | hr := ht hp
      · simp only [hq, if_true]; omega
      · simp only [hr, if_true]; omega

/-- A counter whose window began at `start`, and the times of all events it let
    through up to now. The events of the window are counted; those of the width
    before it are within the limit too. -/
structure Since (width : ℤ) (limit : ℕ) (b : Bucket) (times : List ℤ) (now start : ℤ) : Prop where
  lasts : start + width ≤ b.ends
  begun : start ≤ now
  past : ∀ t ∈ times, t ≤ now
  inside : ∀ t ∈ times, t < b.ends
  counted : times.countP (fun t => start ≤ t) ≤ b.count
  bounded : b.count ≤ limit
  before : times.countP (fun t => start - width < t ∧ t < start) ≤ limit
  sliding : ∀ a c, c - a < width → within a c times ≤ 2 * limit

/-- A counter that is true to the events it let through. -/
def Tracks (width : ℤ) (limit : ℕ) (b : Bucket) (times : List ℤ) (now : ℤ) : Prop :=
  ∃ start, Since width limit b times now start

/-- A counter that let nothing through. -/
theorem Tracks.fresh (width : ℤ) (limit : ℕ) (ends now : ℤ) :
    Tracks width limit { ends := ends } [] now :=
  ⟨min now (ends - width), {
    lasts := by
      show min now (ends - width) + width ≤ ends
      have := min_le_right now (ends - width)
      omega
    begun := min_le_left _ _
    past := by simp
    inside := by simp
    counted := Nat.zero_le _
    bounded := Nat.zero_le _
    before := Nat.zero_le _
    sliding := fun _ _ _ => Nat.zero_le _ }⟩

theorem Tracks.later {later : ℤ} (h : Tracks width limit b times now) (hnow : now ≤ later) :
    Tracks width limit b times later := by
  obtain ⟨start, hs⟩ := h
  exact ⟨start, { hs with
    begun := hs.begun.trans hnow
    past := fun t ht => (hs.past t ht).trans hnow }⟩

/-- A window that has ended is replaced by one that begins now. The events of the
    width before it were all events of the window that ended. -/
theorem Tracks.current (hwidth : 0 < width) (h : Tracks width limit b times now) :
    Tracks width limit (b.current width now) times now := by
  by_cases hlast : now < b.ends
  · rw [Bucket.current_of_lt hlast]
    exact h
  · obtain ⟨start, hs⟩ := h
    have hends : b.ends ≤ now := not_lt.mp hlast
    have hlasts := hs.lasts
    rw [Bucket.current_of_le hends]
    have hnone : times.countP (fun t => now ≤ t) = 0 := by
      rw [List.countP_eq_zero]
      intro t ht
      have := hs.inside t ht
      simp only [decide_eq_true_eq]
      omega
    have hbefore : times.countP (fun t => now - width < t ∧ t < now) ≤
        times.countP (fun t => start ≤ t) := by
      apply List.countP_mono_left
      intro t _ ht
      simp only [decide_eq_true_eq] at ht ⊢
      omega
    exact ⟨now, {
      lasts := le_refl _
      begun := le_refl _
      past := hs.past
      inside := fun t ht => by
        have := hs.past t ht
        show t < now + width
        omega
      counted := hnone.le
      bounded := Nat.zero_le _
      before := hbefore.trans (hs.counted.trans hs.bounded)
      sliding := hs.sliding }⟩

/-- One more event. An interval it lies in reaches back less than a width before
    the window, so what it holds is in the window or in the width before it. -/
theorem Tracks.grant (h : Tracks width limit b times now) (hlast : now < b.ends)
    (hroom : b.count < limit) : Tracks width limit b.grant (now :: times) now := by
  obtain ⟨start, hs⟩ := h
  have hbegun := hs.begun
  have hcounted : (now :: times).countP (fun t => start ≤ t) ≤ b.count + 1 := by
    rw [List.countP_cons_of_pos (by simpa using hbegun)]
    exact Nat.succ_le_succ hs.counted
  have hbefore : (now :: times).countP (fun t => start - width < t ∧ t < start) ≤ limit := by
    rw [List.countP_cons_of_neg (by simp; omega)]
    exact hs.before
  refine ⟨start, ⟨hs.lasts, hbegun, ?_, ?_, hcounted, hroom, hbefore, ?_⟩⟩
  · intro t ht
    cases ht with
    | head => exact le_refl _
    | tail _ ht => exact hs.past t ht
  · intro t ht
    cases ht with
    | head => exact hlast
    | tail _ ht => exact hs.inside t ht
  · intro a c hac
    by_cases hin : a ≤ now ∧ now ≤ c
    · have hsplit : within a c (now :: times) ≤
          (now :: times).countP (fun t => start ≤ t) +
            (now :: times).countP (fun t => start - width < t ∧ t < start) := by
        apply countP_le_add
        intro t ht hac'
        have hpast : t ≤ now := by
          cases ht with
          | head => exact le_refl _
          | tail _ ht => exact hs.past t ht
        simp only [decide_eq_true_eq] at hac' ⊢
        omega
      omega
    · have hskip : within a c (now :: times) = within a c times := by
        unfold within
        rw [List.countP_cons_of_neg (by simpa using hin)]
      rw [hskip]
      exact hs.sliding a c hac

/-- At most twice the limit in any interval shorter than a window. -/
theorem Tracks.within_le (h : Tracks width limit b times now) {a c : ℤ} (hac : c - a < width) :
    within a c times ≤ 2 * limit := by
  obtain ⟨start, hs⟩ := h
  exact hs.sliding a c hac

end FixedWindow
