import Pgfy.Jobs.Select

/-! # What a retention pass keeps

    The rows of a folder come newest first, each with its own time. What the
    scan of `selectExpired` spares of them is said here without the scan: the
    newest backup, what is younger than a day, one backup a day for the latest
    days, and one a week for the latest weeks among the other days.
-/

namespace Pgfy

open Calendar Storage Series

/-! ### The rule -/

/-- The days with a complete backup, as numbers of days. -/
def completeDays (rows : List BucketBackup) : Finset ℤ :=
  ((rows.filter (·.state = .complete)).map (fun b => dayNumber b.takenAt)).toFinset

/-- The most recent days that keep their newest backup. -/
def dailyDays (policy : BackupPolicy) (rows : List BucketBackup) : Finset ℤ :=
  top policy.retentionDaily.toNat (completeDays rows)

/-- The ISO weeks of the complete backups of the other days, as numbers of weeks. -/
def olderWeeks (policy : BackupPolicy) (rows : List BucketBackup) : Finset ℤ :=
  ((rows.filter (fun b => b.state = .complete ∧ dayNumber b.takenAt ∉ dailyDays policy rows)).map
    (fun b => weekNumber (dayNumber b.takenAt))).toFinset

/-- Why a complete backup is kept, where `recent` are those kept whole. -/
inductive KeptFor (policy : BackupPolicy) (recent : BucketBackup → Prop)
    (rows : List BucketBackup) (b : BucketBackup) : Prop
  | newest (h : ∀ c ∈ rows, c.state = .complete → c.takenAt ≤ b.takenAt)
  | recent (h : recent b)
  | day (hday : dayNumber b.takenAt ∈ dailyDays policy rows)
      (h : ∀ c ∈ rows, c.state = .complete → dayNumber c.takenAt = dayNumber b.takenAt →
        c.takenAt ≤ b.takenAt)
  | week (hday : dayNumber b.takenAt ∉ dailyDays policy rows)
      (hweek : weekNumber (dayNumber b.takenAt) ∈
        top policy.retentionWeekly.toNat (olderWeeks policy rows))
      (h : ∀ c ∈ rows, c.state = .complete → dayNumber c.takenAt ∉ dailyDays policy rows →
        weekNumber (dayNumber c.takenAt) = weekNumber (dayNumber b.takenAt) →
        c.takenAt ≤ b.takenAt)

/-- Taken later than 24 hours before `now`. -/
def YoungerThanDay (now : Instant) (b : BucketBackup) : Prop :=
  now - 24 * hour < ofUnix b.takenAt

/-- Taken within the 24 hours before `now`. -/
def WithinLastDay (now : Instant) (b : BucketBackup) : Prop :=
  YoungerThanDay now b ∧ ofUnix b.takenAt ≤ now

instance (now : Instant) (b : BucketBackup) : Decidable (WithinLastDay now b) :=
  inferInstanceAs (Decidable (_ < _ ∧ _ ≤ _))

/-! ### Rows with times of their own -/

/-- Newest first, with no two rows of one time. -/
def NewestFirst (rows : List BucketBackup) : Prop :=
  rows.Pairwise (fun a b => b.takenAt < a.takenAt)

section
variable {policy : BackupPolicy} {now : Instant} {rows : List BucketBackup} {b c : BucketBackup}

theorem NewestFirst.eq_of_time (h : NewestFirst rows) (hb : b ∈ rows) (hc : c ∈ rows)
    (ht : b.takenAt = c.takenAt) : b = c := by
  have hn : (rows.map BucketBackup.takenAt).Nodup :=
    List.pairwise_map.mpr (h.imp (fun {x y} hlt heq => absurd (heq ▸ hlt) (lt_irrefl _)))
  exact List.inj_on_of_nodup_map hn hb hc ht

/-- Among such rows the later time is the greater stamp. -/
theorem NewestFirst.stamp_le_iff (h : NewestFirst rows) (hb : b ∈ rows) (hc : c ∈ rows) :
    c.stamp ≤ b.stamp ↔ c.takenAt ≤ b.takenAt := by
  refine ⟨fun hle => Stamp.time_mono hle, fun hle => ?_⟩
  rcases hle.lt_or_eq with hlt | heq
  · exact (Prod.Lex.toLex_lt_toLex.mpr (Or.inl hlt)).le
  · rw [h.eq_of_time hc hb heq]

/-- The order of the table is the order they already have. -/
theorem NewestFirst.newestFirst_eq (h : NewestFirst rows) : newestFirst rows = rows := by
  apply List.Pairwise.insertionSort_eq
  refine h.imp (fun {x y} hlt => ?_)
  exact (BucketBackup.before_iff x y).mpr (Prod.Lex.toLex_lt_toLex.mpr (Or.inl hlt)).le

/-! ### The series as the rule says it -/

theorem image_day_completeStamps :
    (completeStamps rows).image policy.cut.day = completeDays rows := by
  ext n
  simp only [Finset.mem_image, mem_completeStamps, completeDays, List.mem_toFinset, List.mem_map,
    List.mem_filter, decide_eq_true_eq]
  constructor
  · rintro ⟨_, ⟨c, hc, hstate, rfl⟩, rfl⟩
    exact ⟨c, ⟨hc, hstate⟩, rfl⟩
  · rintro ⟨c, ⟨hc, hstate⟩, rfl⟩
    exact ⟨c.stamp, ⟨c, hc, hstate, rfl⟩, rfl⟩

theorem mem_older_completeStamps {s : Stamp} :
    s ∈ policy.cut.older (completeStamps rows) ↔ ∃ c ∈ rows, c.state = .complete ∧
      dayNumber c.takenAt ∉ dailyDays policy rows ∧ c.stamp = s := by
  rw [Cut.mem_older, image_day_completeStamps, mem_completeStamps]
  constructor
  · rintro ⟨⟨c, hc, hstate, rfl⟩, hday⟩
    exact ⟨c, hc, hstate, hday, rfl⟩
  · rintro ⟨c, hc, hstate, hday, rfl⟩
    exact ⟨⟨c, hc, hstate, rfl⟩, hday⟩

theorem image_week_older :
    (policy.cut.older (completeStamps rows)).image policy.cut.weekOf = olderWeeks policy rows := by
  ext n
  simp only [Finset.mem_image, mem_older_completeStamps, olderWeeks, List.mem_toFinset,
    List.mem_map, List.mem_filter, decide_eq_true_eq]
  constructor
  · rintro ⟨_, ⟨c, hc, hstate, hday, rfl⟩, rfl⟩
    exact ⟨c, ⟨hc, hstate, hday⟩, rfl⟩
  · rintro ⟨c, ⟨hc, hstate, hday⟩, rfl⟩
    exact ⟨c.stamp, ⟨c, hc, hstate, hday, rfl⟩, rfl⟩

/-- The newest of one of the latest days. -/
theorem NewestFirst.mem_daily_leaders (h : NewestFirst rows) (hb : b ∈ rows)
    (hstate : b.state = .complete) :
    b.stamp ∈ leaders policy.cut.day policy.cut.daily (completeStamps rows) ↔
      dayNumber b.takenAt ∈ dailyDays policy rows ∧
        ∀ c ∈ rows, c.state = .complete → dayNumber c.takenAt = dayNumber b.takenAt →
          c.takenAt ≤ b.takenAt := by
  rw [mem_leaders, image_day_completeStamps]
  have hmem : b.stamp ∈ completeStamps rows := mem_completeStamps.mpr ⟨b, hb, hstate, rfl⟩
  constructor
  · rintro ⟨-, hday, hmax⟩
    refine ⟨hday, fun c hc hc' heq => (h.stamp_le_iff hb hc).mp (hmax _ ?_ heq)⟩
    exact mem_completeStamps.mpr ⟨c, hc, hc', rfl⟩
  · rintro ⟨hday, hmax⟩
    refine ⟨hmem, hday, fun s hs heq => ?_⟩
    obtain ⟨c, hc, hc', rfl⟩ := mem_completeStamps.mp hs
    exact (h.stamp_le_iff hb hc).mpr (hmax c hc hc' heq)

/-- The newest of one of the latest weeks among the other days. -/
theorem NewestFirst.mem_weekly_leaders (h : NewestFirst rows) (hb : b ∈ rows)
    (hstate : b.state = .complete) :
    b.stamp ∈ leaders policy.cut.weekOf policy.cut.weekly (policy.cut.older (completeStamps rows)) ↔
      dayNumber b.takenAt ∉ dailyDays policy rows ∧
        weekNumber (dayNumber b.takenAt) ∈
          top policy.retentionWeekly.toNat (olderWeeks policy rows) ∧
        ∀ c ∈ rows, c.state = .complete → dayNumber c.takenAt ∉ dailyDays policy rows →
          weekNumber (dayNumber c.takenAt) = weekNumber (dayNumber b.takenAt) →
          c.takenAt ≤ b.takenAt := by
  rw [mem_leaders, image_week_older]
  constructor
  · rintro ⟨hold, hweek, hmax⟩
    obtain ⟨c₀, hc₀, -, hday, heq⟩ := mem_older_completeStamps.mp hold
    obtain rfl := h.eq_of_time hc₀ hb (congrArg Stamp.time heq)
    refine ⟨hday, hweek, fun c hc hc' hcd hw => (h.stamp_le_iff hb hc).mp (hmax _ ?_ hw)⟩
    exact mem_older_completeStamps.mpr ⟨c, hc, hc', hcd, rfl⟩
  · rintro ⟨hday, hweek, hmax⟩
    refine ⟨mem_older_completeStamps.mpr ⟨b, hb, hstate, hday, rfl⟩, hweek, fun s hs heq => ?_⟩
    obtain ⟨c, hc, hc', hcd, rfl⟩ := mem_older_completeStamps.mp hs
    exact (h.stamp_le_iff hb hc).mpr (hmax c hc hc' hcd heq)

theorem NewestFirst.keeps_iff (h : NewestFirst rows) (hb : b ∈ rows)
    (hstate : b.state = .complete) :
    policy.cut.Keeps (RecentAt now) (completeStamps rows) b.stamp ↔
      KeptFor policy (YoungerThanDay now) rows b := by
  have hmem : b.stamp ∈ completeStamps rows := mem_completeStamps.mpr ⟨b, hb, hstate, rfl⟩
  have hnewest : (∀ s ∈ completeStamps rows, s ≤ b.stamp) ↔
      ∀ c ∈ rows, c.state = .complete → c.takenAt ≤ b.takenAt := by
    constructor
    · intro hall c hc hc'
      exact (h.stamp_le_iff hb hc).mp (hall _ (mem_completeStamps.mpr ⟨c, hc, hc', rfl⟩))
    · intro hall s hs
      obtain ⟨c, hc, hc', rfl⟩ := mem_completeStamps.mp hs
      exact (h.stamp_le_iff hb hc).mpr (hall c hc hc')
  rw [Cut.Keeps, hnewest, h.mem_daily_leaders hb hstate, h.mem_weekly_leaders hb hstate]
  constructor
  · rintro ⟨-, hnew | hrec | ⟨hday, hmax⟩ | ⟨hday, hweek, hmax⟩⟩
    · exact .newest hnew
    · exact .recent hrec
    · exact .day hday hmax
    · exact .week hday hweek hmax
  · intro hkept
    refine ⟨hmem, ?_⟩
    cases hkept with
    | newest hnew => exact Or.inl hnew
    | recent hrec => exact Or.inr (Or.inl hrec)
    | day hday hmax => exact Or.inr (Or.inr (Or.inl ⟨hday, hmax⟩))
    | week hday hweek hmax => exact Or.inr (Or.inr (Or.inr ⟨hday, hweek, hmax⟩))

end

/-! ### What expires -/

/-- Of the rows of a folder, newest first and each with a time and, as the
    table has it, a key of its own, exactly those complete ones are not returned
    that the rule keeps; rows in other states are never returned. -/
theorem selectExpired_spares (rows : List BucketBackup) (policy : BackupPolicy) (now : Instant)
    (hrows : NewestFirst rows) (hkeys : (rows.map BucketBackup.manifestKey).Nodup) :
    (∀ b ∈ rows, b.state = .complete →
      (b ∉ selectExpired rows policy now ↔ KeptFor policy (YoungerThanDay now) rows b)) ∧
    ∀ b, b.state ≠ .complete → b ∉ selectExpired rows policy now := by
  refine ⟨fun b hb hstate => ?_, fun b hstate hexp => ?_⟩
  · have hmem : b ∈ selectExpired (newestFirst rows) policy now ↔ _ := mem_selectExpired hkeys
    rw [hrows.newestFirst_eq] at hmem
    rw [hmem, ← hrows.keeps_iff hb hstate]
    simp only [hb, hstate, true_and, not_not]
  · exact hstate (complete_of_mem_selectExpired hexp).2

/-- A complete backup with a time and a one-letter key. -/
def completeRow (key : Char) (takenAt : ℤ) : BucketBackup :=
  { manifestKey := [key], archiveKey := [key], dbName := [], takenAt := takenAt,
    state := .complete }

/-- Of two backups of one day and one of the day before, kept a day each for one
    day, the older two expire once they are more than a day old. -/
theorem selectExpired_spares_newest :
    let rows := [completeRow 'c' 180000, completeRow 'b' 175000, completeRow 'a' 90000]
    let policy : BackupPolicy := ⟨24, 1, 0, -1⟩
    selectExpired rows policy (ofUnix 400000) =
        [completeRow 'b' 175000, completeRow 'a' 90000] ∧
      ∀ b ∈ rows, b.state = .complete →
        (b ∉ selectExpired rows policy (ofUnix 400000) ↔
          KeptFor policy (YoungerThanDay (ofUnix 400000)) rows b) :=
  ⟨by decide, (selectExpired_spares _ _ (ofUnix 400000) (by simp [NewestFirst, completeRow])
    (by decide)).1⟩

/-- A backup dated later than `now` is kept whole with those of the last day,
    although it is neither within the 24 hours before `now` nor the newest of
    anything. -/
theorem selectExpired_spares_later_date :
    let rows := [completeRow 'b' 103000, completeRow 'a' 102000]
    let policy : BackupPolicy := ⟨24, 1, 0, -1⟩
    let now := ofUnix 100000
    NewestFirst rows ∧ (rows.map BucketBackup.manifestKey).Nodup ∧
      1 ≤ policy.retentionDaily ∧ 0 ≤ policy.retentionWeekly ∧
      completeRow 'a' 102000 ∈ rows ∧
      completeRow 'a' 102000 ∉ selectExpired rows policy now ∧
      ¬ KeptFor policy (WithinLastDay now) rows (completeRow 'a' 102000) := by
  intro rows policy now
  refine ⟨by simp [NewestFirst, completeRow, rows], by decide, by decide, by decide, by decide,
    by decide, fun hkept => ?_⟩
  have hnewer : completeRow 'b' 103000 ∈ rows := List.mem_cons_self
  cases hkept with
  | newest h => exact absurd (h _ hnewer rfl) (by decide)
  | recent h => exact absurd h (by decide)
  | day _ h => exact absurd (h _ hnewer rfl (by decide)) (by decide)
  | week hday _ _ => exact hday (by decide)

end Pgfy
