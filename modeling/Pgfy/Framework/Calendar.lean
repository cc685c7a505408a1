import Mathlib

/-! # The UTC calendar

    Instants are integers counting nanoseconds from the Unix epoch. A day is
    the number of midnights since the epoch, and a `Date` is the proleptic
    Gregorian name of a day, computed with the usual cycles of 400, 100, 4 and
    1 years. ISO weeks run from Monday to Sunday and belong to the year of
    their Thursday.

    Two days have the same `Date` only if they are the same day, and the same
    ISO week only if no Monday lies between them.
-/

namespace Calendar

/-! ### Instants -/

/-- Nanoseconds since the Unix epoch. -/
abbrev Instant := ℤ

/-- One second, in nanoseconds. -/
def second : ℤ := 1000000000

/-- One hour, in nanoseconds. -/
def hour : ℤ := 3600 * second

/-- The whole seconds of an instant, rounded down. -/
def unix (t : Instant) : ℤ := t / second

/-- The instant at which a second begins. -/
def ofUnix (s : ℤ) : Instant := s * second

theorem unix_ofUnix (s : ℤ) : unix (ofUnix s) = s := by
  simp [unix, ofUnix, second]

theorem unix_mono {t t' : Instant} (h : t ≤ t') : unix t ≤ unix t' :=
  Int.ediv_le_ediv (by decide) h

/-! ### Years -/

/-- Number of days in a Gregorian year: 366 in leap years. -/
def daysInYear (y : ℤ) : ℤ :=
  if y % 4 = 0 ∧ (y % 100 ≠ 0 ∨ y % 400 = 0) then 366 else 365

/-- Days from 1 January of year 1 to 1 January of year `y`. -/
def daysBeforeYear (y : ℤ) : ℤ :=
  365 * (y - 1) + (y - 1) / 4 - (y - 1) / 100 + (y - 1) / 400

/-- Days from 1 January of year 1 to the Unix epoch. -/
def epochDay : ℤ := 719162

theorem daysBeforeYear_succ (y : ℤ) :
    daysBeforeYear (y + 1) = daysBeforeYear y + daysInYear y := by
  unfold daysBeforeYear daysInYear
  split <;> omega

/-- Year of the day `n` days after 1 January of year 1, by whole cycles. -/
def yearOf (n : ℤ) : ℤ :=
  let r400 := n % 146097
  let n100 := min 3 (r400 / 36524)
  let r100 := r400 - 36524 * n100
  let n4 := r100 / 1461
  let r4 := r100 % 1461
  let n1 := min 3 (r4 / 365)
  400 * (n / 146097) + 100 * n100 + 4 * n4 + n1 + 1

/-- Days before a year given by its number of whole cycles. -/
theorem daysBeforeYear_cycles (a b c d : ℤ) (hb : 0 ≤ b) (hb' : b ≤ 3) (hc : 0 ≤ c)
    (hc' : c ≤ 24) (hd : 0 ≤ d) (hd' : d ≤ 3) :
    daysBeforeYear (400 * a + 100 * b + 4 * c + d + 1) =
      146097 * a + 36524 * b + 1461 * c + 365 * d := by
  have h4 : (400 * a + 100 * b + 4 * c + d + 1 - 1) / 4 = 100 * a + 25 * b + c := by omega
  have h100 : (400 * a + 100 * b + 4 * c + d + 1 - 1) / 100 = 4 * a + b := by omega
  have h400 : (400 * a + 100 * b + 4 * c + d + 1 - 1) / 400 = a := by omega
  unfold daysBeforeYear
  rw [h4, h100, h400]
  omega

/-- The last year of a four-year cycle is a leap year, except the last year of
    a century that does not end a 400-year cycle. -/
theorem daysInYear_cycles (a b c d : ℤ) (hb : 0 ≤ b) (hb' : b ≤ 3) (hc : 0 ≤ c)
    (hc' : c ≤ 24) (hd : 0 ≤ d) (hd' : d ≤ 3) :
    daysInYear (400 * a + 100 * b + 4 * c + d + 1) =
      if d = 3 ∧ (c ≠ 24 ∨ b = 3) then 366 else 365 := by
  unfold daysInYear
  refine if_congr ?_ rfl rfl
  omega

/-- A day lies in the year `yearOf` names. -/
theorem yearOf_spec (n : ℤ) :
    daysBeforeYear (yearOf n) ≤ n ∧ n < daysBeforeYear (yearOf n) + daysInYear (yearOf n) := by
  obtain ⟨a, r, hr, hr', hn⟩ : ∃ a r, 0 ≤ r ∧ r < 146097 ∧ n = 146097 * a + r :=
    ⟨n / 146097, n % 146097, by omega, by omega, by omega⟩
  have ha : n / 146097 = a := by omega
  have hmod : n % 146097 = r := by omega
  unfold yearOf
  simp only [ha, hmod]
  set b := min 3 (r / 36524) with hb
  have hb0 : 0 ≤ b ∧ b ≤ 3 ∧ 36524 * b ≤ r ∧ (b = 3 ∨ r < 36524 * b + 36524) := by omega
  set c := (r - 36524 * b) / 1461 with hc
  have hc0 : 0 ≤ c ∧ c ≤ 24 := by omega
  set d := min 3 ((r - 36524 * b) % 1461 / 365) with hd
  have hd0 : 0 ≤ d ∧ d ≤ 3 := by omega
  rw [daysBeforeYear_cycles a b c d hb0.1 hb0.2.1 hc0.1 hc0.2 hd0.1 hd0.2,
    daysInYear_cycles a b c d hb0.1 hb0.2.1 hc0.1 hc0.2 hd0.1 hd0.2]
  clear_value b c d
  constructor
  · omega
  · split <;> omega

/-- Years do not overlap. -/
theorem daysBeforeYear_mono {y y' : ℤ} (h : y ≤ y') : daysBeforeYear y ≤ daysBeforeYear y' := by
  unfold daysBeforeYear
  omega

theorem yearOf_unique {n y : ℤ} (h : daysBeforeYear y ≤ n)
    (h' : n < daysBeforeYear y + daysInYear y) : yearOf n = y := by
  obtain ⟨h1, h2⟩ := yearOf_spec n
  rw [← daysBeforeYear_succ] at h' h2
  rcases lt_trichotomy (yearOf n) y with hlt | heq | hgt
  · have := daysBeforeYear_mono (show yearOf n + 1 ≤ y from hlt); omega
  · exact heq
  · have := daysBeforeYear_mono (show y + 1 ≤ yearOf n from hgt); omega

/-! ### Months and dates -/

/-- The lengths of the months of a year. -/
def monthLengths (y : ℤ) : List ℤ :=
  [31, daysInYear y - 337, 31, 30, 31, 30, 31, 31, 30, 31, 30, 31]

/-- The index of the stretch that day `r` falls in, and the day within it. -/
def splitDays : List ℤ → ℤ → ℕ × ℤ
  | [], r => (0, r)
  | len :: rest, r =>
    if r < len then (0, r) else
      let p := splitDays rest (r - len)
      (p.1 + 1, p.2)

theorem sum_take_splitDays (lens : List ℤ) (r : ℤ) :
    (lens.take (splitDays lens r).1).sum + (splitDays lens r).2 = r := by
  induction lens generalizing r with
  | nil => simp [splitDays]
  | cons len rest ih =>
    unfold splitDays
    split
    · simp
    · have := ih (r - len)
      simp only [List.take_succ_cons, List.sum_cons]
      omega

/-- A day of the stretches falls into one of them. -/
theorem splitDays_spec {l : List ℤ} {r : ℤ} (hr : 0 ≤ r) (h : r < l.sum) :
    (splitDays l r).1 < l.length ∧ 0 ≤ (splitDays l r).2 ∧
      (splitDays l r).2 < l.getD (splitDays l r).1 0 := by
  induction l generalizing r with
  | nil =>
    rw [List.sum_nil] at h
    omega
  | cons len rest ih =>
    unfold splitDays
    split
    · next hlt => exact ⟨Nat.succ_pos _, hr, hlt⟩
    · next hge =>
      rw [List.sum_cons] at h
      obtain ⟨h₁, h₂, h₃⟩ := ih (r := r - len) (by omega) (by omega)
      exact ⟨Nat.succ_lt_succ h₁, h₂, h₃⟩

theorem sum_monthLengths (y : ℤ) : (monthLengths y).sum = daysInYear y := by
  simp only [monthLengths, List.sum_cons, List.sum_nil]
  omega

/-- A calendar date; months and days count from one. -/
structure Date where
  year : ℤ
  month : ℕ
  day : ℤ
deriving DecidableEq

/-- The date of the day `n` days after the Unix epoch. -/
def Date.ofDays (n : ℤ) : Date :=
  let year := yearOf (n + epochDay)
  let p := splitDays (monthLengths year) (n + epochDay - daysBeforeYear year)
  ⟨year, p.1 + 1, p.2 + 1⟩

/-- Days from the Unix epoch to a date. -/
def Date.toDays (d : Date) : ℤ :=
  daysBeforeYear d.year + ((monthLengths d.year).take (d.month - 1)).sum + (d.day - 1) - epochDay

theorem Date.toDays_ofDays (n : ℤ) : (Date.ofDays n).toDays = n := by
  have h := sum_take_splitDays (monthLengths (yearOf (n + epochDay)))
    (n + epochDay - daysBeforeYear (yearOf (n + epochDay)))
  simp only [Date.toDays, Date.ofDays, Nat.add_sub_cancel]
  omega

/-- The date of a day is one of the calendar. -/
theorem Date.ofDays_valid (n : ℤ) :
    1 ≤ (Date.ofDays n).month ∧ (Date.ofDays n).month ≤ 12 ∧ 1 ≤ (Date.ofDays n).day ∧
      (Date.ofDays n).day ≤
        (monthLengths (Date.ofDays n).year).getD ((Date.ofDays n).month - 1) 0 := by
  obtain ⟨hlo, hhi⟩ := yearOf_spec (n + epochDay)
  obtain ⟨hmonth, hday, hday'⟩ := splitDays_spec
    (l := monthLengths (yearOf (n + epochDay)))
    (r := n + epochDay - daysBeforeYear (yearOf (n + epochDay)))
    (by omega) (by rw [sum_monthLengths]; omega)
  have hlen : (monthLengths (yearOf (n + epochDay))).length = 12 := rfl
  simp only [Date.ofDays, Nat.add_sub_cancel]
  refine ⟨by omega, by omega, by omega, by omega⟩

theorem monthLengths_le (y : ℤ) (k : ℕ) : (monthLengths y).getD k 0 ≤ 31 := by
  have hall : ∀ len ∈ monthLengths y, len ≤ 31 := by
    have hyear : daysInYear y ≤ 366 := by
      unfold daysInYear
      split <;> omega
    simp only [monthLengths, List.forall_mem_cons]
    refine ⟨?_, ?_, ?_, ?_, ?_, ?_, ?_, ?_, ?_, ?_, ?_, ?_, by simp⟩ <;> omega
  rw [List.getD_eq_getElem?_getD]
  cases hk : (monthLengths y)[k]? with
  | none => decide
  | some len => exact hall len (List.mem_of_getElem? hk)

/-- A date that exists lies in its year. -/
theorem Date.year_ofDays_toDays {d : Date} (hmonth : 1 ≤ d.month) (hmonth' : d.month ≤ 12)
    (hday : 1 ≤ d.day) (hday' : d.day ≤ (monthLengths d.year).getD (d.month - 1) 0) :
    (Date.ofDays d.toDays).year = d.year := by
  obtain ⟨y, m, day⟩ := d
  simp only at hmonth hmonth' hday hday'
  have hyear : daysInYear y = 366 ∨ daysInYear y = 365 := by
    unfold daysInYear
    split <;> simp
  have hbefore : 0 ≤ ((monthLengths y).take (m - 1)).sum ∧
      ((monthLengths y).take (m - 1)).sum + (monthLengths y).getD (m - 1) 0 ≤ daysInYear y := by
    interval_cases m <;> simp [monthLengths] <;> omega
  simp only [Date.ofDays, Date.toDays]
  apply yearOf_unique <;> omega

theorem Date.ofDays_injective : Function.Injective Date.ofDays :=
  Function.LeftInverse.injective Date.toDays_ofDays

/-! ### Days and ISO weeks of a Unix time -/

/-- The day a Unix second falls on, counted from the epoch. -/
def dayNumber (s : ℤ) : ℤ := s / 86400

/-- The week a day falls in: weeks start on Mondays, and the epoch was a
    Thursday. -/
def weekNumber (day : ℤ) : ℤ := (day + 3) / 7

theorem dayNumber_mono : Monotone dayNumber := fun _ _ h => Int.ediv_le_ediv (by decide) h

theorem weekNumber_mono : Monotone weekNumber := fun _ _ h =>
  Int.ediv_le_ediv (by decide) (by omega)

/-- An ISO 8601 week: its year and its number in that year. -/
structure IsoWeek where
  year : ℤ
  week : ℤ
deriving DecidableEq

/-- The ISO week of the day `n` days after the epoch: the year of the week's
    Thursday, and how many Thursdays of that year came before it. -/
def IsoWeek.ofDays (n : ℤ) : IsoWeek :=
  let thursday := n + 3 - (n + 3) % 7
  let year := yearOf (thursday + epochDay)
  ⟨year, (thursday + epochDay - daysBeforeYear year) / 7 + 1⟩

/-- Days of one week have one ISO week, and days of different weeks differ. -/
theorem IsoWeek.ofDays_eq_iff (n m : ℤ) :
    IsoWeek.ofDays n = IsoWeek.ofDays m ↔ weekNumber n = weekNumber m := by
  simp only [IsoWeek.ofDays, IsoWeek.mk.injEq, weekNumber]
  constructor
  · rintro ⟨hyear, hweek⟩
    rw [← hyear] at hweek
    omega
  · intro h
    have : n + 3 - (n + 3) % 7 = m + 3 - (m + 3) % 7 := by omega
    rw [this]
    exact ⟨rfl, rfl⟩

end Calendar
