import Pgfy.Framework.Series
import Pgfy.Store.Backups

/-! # Which backups a retention pass selects

    `selectExpired` scans the complete backups of one folder from the newest to
    the oldest. It keeps the newest, everything of the last day, the first
    backup it meets of each of the first `retentionDaily` days, and of the
    other days the first of each of the first `retentionWeekly` ISO weeks.

    The scan is proved to compute the retention series of `Framework.Series`
    over the backups ordered by time and key. What earlier passes have deleted
    is then irrelevant to what a later pass keeps.
-/

namespace Pgfy

open Calendar Storage Series

/-! ### The scan -/

/-- What the scan has kept, and the days and weeks it has seen. -/
structure Kept where
  keep : List Text
  days : List Date := []
  weeks : List IsoWeek := []

/-- One row of the scan. -/
def Kept.scan (policy : BackupPolicy) (recent : Instant) (k : Kept) (b : BucketBackup) : Kept :=
  let keep := if recent < ofUnix b.takenAt then b.manifestKey :: k.keep else k.keep
  let day := Date.ofDays (dayNumber b.takenAt)
  let week := IsoWeek.ofDays (dayNumber b.takenAt)
  if k.days.length < policy.retentionDaily ∧ day ∉ k.days then
    { k with keep := b.manifestKey :: keep, days := day :: k.days }
  else if day ∈ k.days then
    { k with keep := keep }
  else if k.weeks.length < policy.retentionWeekly ∧ week ∉ k.weeks then
    { k with keep := b.manifestKey :: keep, weeks := week :: k.weeks }
  else
    { k with keep := keep }

/-- The complete backups that are not kept. Rows arrive newest first. -/
def selectExpired (backups : List BucketBackup) (policy : BackupPolicy) (now : Instant) :
    List BucketBackup :=
  let complete := backups.filter (·.state = .complete)
  match complete with
  | [] => []
  | newest :: _ =>
    let kept := complete.foldl (Kept.scan policy (now - 24 * hour)) { keep := [newest.manifestKey] }
    complete.filter (fun b => b.manifestKey ∉ kept.keep)

/-- Only complete backups expire. -/
theorem complete_of_mem_selectExpired {backups : List BucketBackup} {policy : BackupPolicy}
    {now : Instant} {b : BucketBackup} (h : b ∈ selectExpired backups policy now) :
    b ∈ backups ∧ b.state = .complete := by
  unfold selectExpired at h
  dsimp only at h
  split at h
  · cases h
  · obtain ⟨hmem, hstate⟩ := List.mem_filter.mp (List.mem_filter.mp h).1
    exact ⟨hmem, of_decide_eq_true hstate⟩

theorem Kept.keep_subset_scan (policy : BackupPolicy) (recent : Instant) (k : Kept)
    (b : BucketBackup) : k.keep ⊆ (k.scan policy recent b).keep := by
  intro key hkey
  have hkeep : key ∈ if recent < ofUnix b.takenAt then b.manifestKey :: k.keep else k.keep := by
    split <;> simp [hkey]
  unfold Kept.scan
  dsimp only
  split
  · exact List.mem_cons_of_mem _ hkeep
  · split
    · exact hkeep
    · split
      · exact List.mem_cons_of_mem _ hkeep
      · exact hkeep

theorem Kept.keep_subset_foldl (policy : BackupPolicy) (recent : Instant)
    (rows : List BucketBackup) (k : Kept) :
    k.keep ⊆ (rows.foldl (Kept.scan policy recent) k).keep := by
  induction rows generalizing k with
  | nil => exact fun _ h => h
  | cons b rows ih => exact fun key hkey => ih _ (k.keep_subset_scan policy recent b hkey)

/-- The newest complete backup never expires. -/
theorem newest_not_mem_selectExpired {rows : List BucketBackup} {policy : BackupPolicy}
    {now : Instant} {b : BucketBackup}
    (hnewest : ∀ c ∈ rows, c.state = .complete → c.stamp ≤ b.stamp) :
    b ∉ selectExpired (newestFirst rows) policy now := by
  intro h
  have hsorted := (List.pairwise_insertionSort BucketBackup.Before rows).filter
    (·.state = .complete)
  have hmem : ∀ c ∈ (newestFirst rows).filter (·.state = .complete),
      c ∈ rows ∧ c.state = .complete := by
    intro c hc
    obtain ⟨hc, hstate⟩ := List.mem_filter.mp hc
    exact ⟨mem_newestFirst.mp hc, of_decide_eq_true hstate⟩
  unfold selectExpired at h
  change List.Pairwise _ ((newestFirst rows).filter (·.state = .complete)) at hsorted
  generalize (newestFirst rows).filter (·.state = .complete) = complete at h hsorted hmem
  cases complete with
  | nil => cases h
  | cons newest rest =>
    obtain ⟨hb, hkey⟩ := List.mem_filter.mp h
    have hle : b.stamp ≤ newest.stamp := by
      rcases List.mem_cons.mp hb with rfl | hb
      · exact le_rfl
      · exact (BucketBackup.before_iff _ _).mp ((List.pairwise_cons.mp hsorted).1 b hb)
    obtain ⟨hnew, hcomplete⟩ := hmem newest List.mem_cons_self
    have heq : b.manifestKey = newest.manifestKey :=
      congrArg Stamp.key (le_antisymm hle (hnewest newest hnew hcomplete))
    apply of_decide_eq_true hkey
    rw [heq]
    exact Kept.keep_subset_foldl _ _ _ _ (List.mem_singleton_self _)

/-! ### The scan computes the series -/

/-- The series a policy asks for. -/
def BackupPolicy.cut (policy : BackupPolicy) : Cut Stamp ℤ ℤ where
  daily := policy.retentionDaily.toNat
  weekly := policy.retentionWeekly.toNat
  day := fun s => dayNumber s.time
  week := weekNumber

/-- Taken within the 24 hours before `now`. -/
def RecentAt (now : Instant) (s : Stamp) : Prop := now - 24 * hour < ofUnix s.time

def stamps (rows : List BucketBackup) : Finset Stamp := (rows.map BucketBackup.stamp).toFinset

theorem mem_stamps {rows : List BucketBackup} {s : Stamp} :
    s ∈ stamps rows ↔ ∃ b ∈ rows, b.stamp = s := by
  simp [stamps]

theorem stamps_snoc (rows : List BucketBackup) (b : BucketBackup) :
    stamps (rows ++ [b]) = insert b.stamp (stamps rows) := by
  ext s
  simp [stamps]

theorem BackupPolicy.cut_day_mono (policy : BackupPolicy) : Monotone policy.cut.day :=
  fun _ _ h => dayNumber_mono (Stamp.time_mono h)

theorem BackupPolicy.cut_week_mono (policy : BackupPolicy) : Monotone policy.cut.weekOf :=
  fun _ _ h => weekNumber_mono (policy.cut_day_mono h)

/-- The ISO week with a given number. -/
def isoOfWeek (w : ℤ) : IsoWeek := IsoWeek.ofDays (7 * w - 3)

theorem isoWeek_ofDays (n : ℤ) : IsoWeek.ofDays n = isoOfWeek (weekNumber n) := by
  rw [isoOfWeek, IsoWeek.ofDays_eq_iff]
  unfold weekNumber
  omega

theorem isoOfWeek_injective : Function.Injective isoOfWeek := by
  intro v w h
  have := (IsoWeek.ofDays_eq_iff _ _).mp h
  unfold weekNumber at this
  omega

/-- What the scan knows of the classes it has filled: a duplicate-free list of
    their names that stands for a set of numbers. -/
structure Filled {κ : Type} (name : ℤ → κ) (names : List κ) (s : Finset ℤ) : Prop where
  mem : ∀ n, name n ∈ names ↔ n ∈ s
  length : names.length = s.card

theorem Filled.cons {κ : Type} {name : ℤ → κ} (hinj : Function.Injective name) {names : List κ}
    {s : Finset ℤ} (h : Filled name names s) {n : ℤ} (hn : n ∉ s) :
    Filled name (name n :: names) (insert n s) where
  mem m := by rw [List.mem_cons, Finset.mem_insert, h.mem, hinj.eq_iff]
  length := by rw [List.length_cons, h.length, Finset.card_insert_of_notMem hn]

/-- A filled list of the greatest classes has room exactly when the classes are
    fewer than the quota. -/
theorem Filled.room_iff {κ : Type} {name : ℤ → κ} {names : List κ} {quota : ℤ} {s : Finset ℤ}
    (h : Filled name names (top quota.toNat s)) :
    (names.length : ℤ) < quota ↔ s.card < quota.toNat := by
  rw [h.length, ← card_top_lt_iff (n := quota.toNat)]
  omega

/-- Why the scan keeps a row of `s`, apart from it being the newest. -/
def Picks (policy : BackupPolicy) (now : Instant) (s : Finset Stamp) (x : Stamp) : Prop :=
  RecentAt now x ∨ x ∈ leaders policy.cut.day policy.cut.daily s ∨
    x ∈ leaders policy.cut.weekOf policy.cut.weekly (policy.cut.older s)

/-- The state of the scan after the rows with stamps `s`. -/
structure Scanned (policy : BackupPolicy) (now : Instant) (newest : Text)
    (rows : List BucketBackup) (k : Kept) : Prop where
  days : Filled Date.ofDays k.days
    (top policy.retentionDaily.toNat ((stamps rows).image policy.cut.day))
  weeks : Filled isoOfWeek k.weeks
    (top policy.retentionWeekly.toNat ((policy.cut.older (stamps rows)).image policy.cut.weekOf))
  keep : ∀ key, key ∈ k.keep ↔ key = newest ∨
    ∃ b ∈ rows, b.manifestKey = key ∧ Picks policy now (stamps rows) b.stamp

section Step

variable {policy : BackupPolicy} {now : Instant} {s : Finset Stamp} {x : Stamp}

/-- A row older than all others does not change why they are kept. -/
theorem picks_insert_old (hx : ∀ y ∈ s, x < y) {y : Stamp} (hy : y ∈ s) :
    Picks policy now (insert x s) y ↔ Picks policy now s y := by
  have hne : y ≠ x := fun h => lt_irrefl x (hx x (h ▸ hy))
  have hxo : ∀ z ∈ policy.cut.older s, x < z := fun z hz => hx z (Cut.mem_older.mp hz).1
  unfold Picks
  refine or_congr_right (or_congr ?_ ?_)
  · rw [mem_leaders_insert_of_lt policy.cut_day_mono hx]
    exact or_iff_right (fun h => hne h.1)
  · rw [Cut.older_insert_of_lt policy.cut_day_mono hx]
    split
    · rw [mem_leaders_insert_of_lt policy.cut_week_mono hxo]
      exact or_iff_right (fun h => hne h.1)
    · rfl

/-- Why a row older than all others is kept. -/
theorem picks_insert_new (hx : ∀ y ∈ s, x < y) :
    Picks policy now (insert x s) x ↔ RecentAt now x ∨
      ((s.image policy.cut.day).card < policy.cut.daily ∧
        policy.cut.day x ∉ top policy.cut.daily (s.image policy.cut.day)) ∨
      ((¬ (s.image policy.cut.day).card < policy.cut.daily ∧
        policy.cut.day x ∉ top policy.cut.daily (s.image policy.cut.day)) ∧
        ((policy.cut.older s).image policy.cut.weekOf).card < policy.cut.weekly ∧
        policy.cut.weekOf x ∉
          top policy.cut.weekly ((policy.cut.older s).image policy.cut.weekOf)) := by
  have hxs : x ∉ s := fun h => lt_irrefl x (hx x h)
  have hxo : ∀ z ∈ policy.cut.older s, x < z := fun z hz => hx z (Cut.mem_older.mp hz).1
  have hxo' : x ∉ policy.cut.older s := fun h => hxs (Cut.mem_older.mp h).1
  -- a class with room is among the greatest as soon as it occurs
  have hnew : ∀ {γ : Type} [LinearOrder γ] {n : ℕ} {t : Finset γ} {d : γ},
      (d ∉ t ∧ t.card < n) ↔ (t.card < n ∧ d ∉ top n t) := by
    intro γ _ n t d
    refine ⟨fun h => ⟨h.2, fun hd => h.1 (top_subset _ _ hd)⟩, fun h => ⟨?_, h.1⟩⟩
    exact top_eq_self h.1.le ▸ h.2
  have hday : x ∈ leaders policy.cut.day policy.cut.daily (insert x s) ↔
      ((s.image policy.cut.day).card < policy.cut.daily ∧
        policy.cut.day x ∉ top policy.cut.daily (s.image policy.cut.day)) := by
    rw [mem_leaders_insert_of_lt policy.cut_day_mono hx, ← hnew]
    refine ⟨fun h => h.elim (fun h => h.2) (fun h => absurd (leaders_subset _ _ _ h) hxs), ?_⟩
    exact fun h => Or.inl ⟨rfl, h⟩
  unfold Picks
  rw [hday, Cut.older_insert_of_lt policy.cut_day_mono hx]
  refine or_congr_right (or_congr_right ?_)
  split
  · next hout =>
    rw [mem_leaders_insert_of_lt policy.cut_week_mono hxo, ← hnew]
    constructor
    · rintro (h | h)
      · exact ⟨hout, h.2⟩
      · exact absurd (leaders_subset _ _ _ h) hxo'
    · exact fun h => Or.inl ⟨rfl, h.2⟩
  · next hout =>
    exact ⟨fun h => absurd (leaders_subset _ _ _ h) hxo', fun h => absurd h.1 hout⟩

variable {newest : Text} {rows : List BucketBackup} {k : Kept} {b : BucketBackup}

/-- The kept keys after one more row, for any reason `P` to keep it that agrees
    with the series. -/
theorem Scanned.keep_snoc (h : Scanned policy now newest rows k)
    (hx : ∀ y ∈ stamps rows, b.stamp < y) {keep : List Text} {P : Prop}
    (hkeep : ∀ key, key ∈ keep ↔ key ∈ k.keep ∨ (P ∧ key = b.manifestKey))
    (hP : P ↔ Picks policy now (insert b.stamp (stamps rows)) b.stamp) (key : Text) :
    key ∈ keep ↔ key = newest ∨ ∃ c ∈ rows ++ [b], c.manifestKey = key ∧
      Picks policy now (stamps (rows ++ [b])) c.stamp := by
  have hold : ∀ c ∈ rows, (Picks policy now (stamps (rows ++ [b])) c.stamp ↔
      Picks policy now (stamps rows) c.stamp) := fun c hc => by
    rw [stamps_snoc]
    exact picks_insert_old hx (mem_stamps.mpr ⟨c, hc, rfl⟩)
  rw [hkeep, h.keep, hP, ← stamps_snoc, or_assoc]
  refine or_congr_right ⟨?_, ?_⟩
  · rintro (⟨c, hc, hkey, hpick⟩ | ⟨hpick, rfl⟩)
    · exact ⟨c, List.mem_append_left _ hc, hkey, (hold c hc).mpr hpick⟩
    · exact ⟨b, by simp, rfl, hpick⟩
  · rintro ⟨c, hc, hkey, hpick⟩
    rcases List.mem_append.mp hc with hc | hc
    · exact Or.inl ⟨c, hc, hkey, (hold c hc).mp hpick⟩
    · obtain rfl := List.mem_singleton.mp hc
      exact Or.inr ⟨hpick, hkey.symm⟩

/-- The keys kept for a row: its own if it is recent or has another reason. -/
theorem mem_keep_iff {keep : List Text} {recent : Prop} [Decidable recent] {key own : Text} :
    key ∈ (if recent then own :: keep else keep) ↔ key ∈ keep ∨ (recent ∧ key = own) := by
  split <;> simp_all [or_comm]

theorem mem_cons_keep_iff {keep : List Text} {recent : Prop} [Decidable recent] {key own : Text} :
    key ∈ own :: (if recent then own :: keep else keep) ↔ key ∈ keep ∨ (True ∧ key = own) := by
  rw [List.mem_cons, mem_keep_iff]
  tauto

/-- One row of the scan keeps the invariant. -/
theorem Scanned.snoc (h : Scanned policy now newest rows k)
    (hx : ∀ y ∈ stamps rows, b.stamp < y) :
    Scanned policy now newest (rows ++ [b]) (k.scan policy (now - 24 * hour) b) := by
  have hxo : ∀ z ∈ policy.cut.older (stamps rows), b.stamp < z :=
    fun z hz => hx z (Cut.mem_older.mp hz).1
  have hroomD := h.days.room_iff
  have hroomW := h.weeks.room_iff
  have hinD := h.days.mem (dayNumber b.takenAt)
  have hinW := h.weeks.mem (weekNumber (dayNumber b.takenAt))
  have hpick : Picks policy now (insert b.stamp (stamps rows)) b.stamp ↔ _ := picks_insert_new hx
  have hdays := top_image_insert_of_lt policy.cut_day_mono hx (n := policy.cut.daily)
  have holder := Cut.older_insert_of_lt policy.cut_day_mono hx
  have hweeks := top_image_insert_of_lt policy.cut_week_mono hxo (n := policy.cut.weekly)
  rw [← stamps_snoc] at hdays holder
  unfold Kept.scan
  dsimp only
  rw [isoWeek_ofDays]
  split
  · -- a new day with room: the row leads its day
    next h1 =>
    have hroom : _ < policy.cut.daily := hroomD.mp h1.1
    have hnew : policy.cut.day b.stamp ∉ _ := fun hin => h1.2 (hinD.mpr hin)
    rw [if_pos hroom] at hdays
    rw [if_neg (fun hn => hn.1 hroom)] at holder
    refine ⟨hdays ▸ h.days.cons Date.ofDays_injective hnew, holder.symm ▸ h.weeks, ?_⟩
    refine h.keep_snoc hx (fun key => mem_cons_keep_iff) ?_
    rw [hpick]
    exact iff_of_true trivial (Or.inr (Or.inl ⟨hroom, hnew⟩))
  split
  · -- a day that already has its row
    next h1 h2 =>
    have hin := hinD.mp h2
    have hout : ¬ (policy.cut.day b.stamp ∉ top policy.cut.daily _) := not_not.mpr hin
    rw [if_neg (fun hn => hout hn.2)] at holder
    have hdays' : top policy.cut.daily ((stamps (rows ++ [b])).image policy.cut.day) =
        top policy.cut.daily ((stamps rows).image policy.cut.day) := by
      rw [hdays]
      split
      · exact Finset.insert_eq_of_mem hin
      · rfl
    refine ⟨hdays'.symm ▸ h.days, holder.symm ▸ h.weeks, ?_⟩
    refine h.keep_snoc hx (P := RecentAt now b.stamp) (fun key => mem_keep_iff) ?_
    rw [hpick]
    exact ⟨Or.inl, fun o => o.elim id (fun o => o.elim (fun o => absurd hin o.2)
      (fun o => absurd hin o.1.2))⟩
  · -- a day beyond the daily series
    next h1 h2 =>
    have hnot : policy.cut.day b.stamp ∉ top policy.cut.daily _ := fun hin => h2 (hinD.mpr hin)
    have hfull : ¬ ((stamps rows).image policy.cut.day).card < policy.cut.daily :=
      fun hroom => h1 ⟨hroomD.mpr hroom, h2⟩
    rw [if_neg hfull] at hdays
    rw [if_pos ⟨hfull, hnot⟩] at holder
    rw [← holder] at hweeks
    split
    · next h3 =>
      have hroom : _ < policy.cut.weekly := hroomW.mp h3.1
      have hnew : policy.cut.weekOf b.stamp ∉ _ := fun hin => h3.2 (hinW.mpr hin)
      rw [if_pos hroom] at hweeks
      refine ⟨hdays.symm ▸ h.days, hweeks ▸ h.weeks.cons isoOfWeek_injective hnew, ?_⟩
      refine h.keep_snoc hx (fun key => mem_cons_keep_iff) ?_
      rw [hpick]
      exact iff_of_true trivial (Or.inr (Or.inr ⟨⟨hfull, hnot⟩, hroom, hnew⟩))
    · next h3 =>
      have hstay : ¬ (((policy.cut.older (stamps rows)).image policy.cut.weekOf).card <
          policy.cut.weekly ∧ policy.cut.weekOf b.stamp ∉ top policy.cut.weekly _) :=
        fun hn => h3 ⟨hroomW.mpr hn.1, fun hin => hn.2 (hinW.mp hin)⟩
      have hweeks' : top policy.cut.weekly
            ((policy.cut.older (stamps (rows ++ [b]))).image policy.cut.weekOf) =
          top policy.cut.weekly ((policy.cut.older (stamps rows)).image policy.cut.weekOf) := by
        rw [hweeks]
        split
        · next hroom =>
          exact Finset.insert_eq_of_mem (by_contra (fun hn => hstay ⟨hroom, hn⟩))
        · rfl
      refine ⟨hdays.symm ▸ h.days, hweeks'.symm ▸ h.weeks, ?_⟩
      refine h.keep_snoc hx (P := RecentAt now b.stamp) (fun key => mem_keep_iff) ?_
      rw [hpick]
      exact ⟨Or.inl, fun o => o.elim id (fun o => o.elim (fun o => absurd o.1 hfull)
        (fun o => absurd o.2 hstay))⟩

end Step

/-- The invariant after a whole scan, by induction on the rows already read. -/
theorem scanned_foldl (policy : BackupPolicy) (now : Instant) (newest : Text)
    {rows : List BucketBackup} (hs : rows.Pairwise (fun a b => b.stamp < a.stamp)) :
    Scanned policy now newest rows
      (rows.foldl (Kept.scan policy (now - 24 * hour)) { keep := [newest] }) := by
  induction rows using List.reverseRecOn with
  | nil =>
    refine ⟨⟨fun n => ?_, ?_⟩, ⟨fun n => ?_, ?_⟩, fun key => ?_⟩ <;>
      simp [stamps, Cut.older, top]
  | append_singleton rows b ih =>
    obtain ⟨hrows, -, hlast⟩ := List.pairwise_append.mp hs
    rw [List.foldl_append]
    refine (ih hrows).snoc (fun y hy => ?_)
    obtain ⟨c, hc, rfl⟩ := mem_stamps.mp hy
    exact hlast c hc b (List.mem_singleton_self b)

/-- The stamps of the complete rows, which are all the scan looks at. -/
def completeStamps (rows : List BucketBackup) : Finset Stamp :=
  stamps (rows.filter (·.state = .complete))

theorem mem_completeStamps {rows : List BucketBackup} {s : Stamp} :
    s ∈ completeStamps rows ↔ ∃ b ∈ rows, b.state = .complete ∧ b.stamp = s := by
  simp only [completeStamps, mem_stamps, List.mem_filter, decide_eq_true_eq, and_assoc]

theorem completeStamps_append (rows more : List BucketBackup) :
    completeStamps (rows ++ more) = completeStamps rows ∪ completeStamps more := by
  ext s
  simp only [Finset.mem_union, mem_completeStamps, List.mem_append]
  constructor
  · rintro ⟨b, hb | hb, h⟩
    · exact Or.inl ⟨b, hb, h⟩
    · exact Or.inr ⟨b, hb, h⟩
  · rintro (⟨b, hb, h⟩ | ⟨b, hb, h⟩)
    · exact ⟨b, Or.inl hb, h⟩
    · exact ⟨b, Or.inr hb, h⟩

theorem completeStamps_newestFirst (rows : List BucketBackup) :
    completeStamps (newestFirst rows) = completeStamps rows := by
  ext s
  simp only [mem_completeStamps, mem_newestFirst]

/-- `selectExpired` returns the complete rows the series does not keep. -/
theorem mem_selectExpired {policy : BackupPolicy} {now : Instant} {rows : List BucketBackup}
    (hn : (rows.map BucketBackup.manifestKey).Nodup) {b : BucketBackup} :
    b ∈ selectExpired (newestFirst rows) policy now ↔ b ∈ rows ∧ b.state = .complete ∧
      ¬ policy.cut.Keeps (RecentAt now) (completeStamps rows) b.stamp := by
  have hmem : b ∈ (newestFirst rows).filter (·.state = .complete) ↔
      b ∈ rows ∧ b.state = .complete := by
    simp [mem_newestFirst]
  have hs := (newestFirst_strict hn).filter (·.state = .complete)
  have hkeys : (((newestFirst rows).filter (·.state = .complete)).map
      BucketBackup.manifestKey).Nodup :=
    (((List.perm_insertionSort _ _).map _).nodup_iff.mpr hn).sublist
      (List.filter_sublist.map _)
  rw [← and_assoc, ← hmem, ← completeStamps_newestFirst]
  unfold selectExpired completeStamps
  generalize (newestFirst rows).filter (·.state = .complete) = complete at hs hkeys
  cases complete with
  | nil => simp
  | cons newest rest =>
    dsimp only
    rw [List.mem_filter, decide_eq_true_eq]
    refine and_congr_right (fun hb => not_congr ?_)
    rw [(scanned_foldl policy now newest.manifestKey hs).keep]
    have hinj : ∀ c ∈ newest :: rest, c.manifestKey = b.manifestKey → c = b :=
      fun c hc h => List.inj_on_of_nodup_map hkeys hc hb h
    have hnewest : ∀ c ∈ newest :: rest, c.stamp ≤ newest.stamp := by
      intro c hc
      rcases List.mem_cons.mp hc with rfl | hc
      · exact le_rfl
      · exact ((List.pairwise_cons.mp hs).1 c hc).le
    constructor
    · rintro (h | ⟨c, hc, hkey, hpick⟩)
      · obtain rfl := hinj newest List.mem_cons_self h.symm
        refine ⟨mem_stamps.mpr ⟨newest, hb, rfl⟩, Or.inl (fun x hx => ?_)⟩
        obtain ⟨c, hc, rfl⟩ := mem_stamps.mp hx
        exact hnewest c hc
      · obtain rfl := hinj c hc hkey
        exact ⟨mem_stamps.mpr ⟨c, hc, rfl⟩, Or.inr hpick⟩
    · rintro ⟨-, hall | hpick⟩
      · refine Or.inl (congrArg Stamp.key (le_antisymm (hnewest b hb) (hall _ ?_)))
        exact mem_stamps.mpr ⟨newest, List.mem_cons_self, rfl⟩
      · exact Or.inr ⟨b, hb, rfl, hpick⟩

/-! ### Repeated passes -/

/-- What is left of a folder's rows after a pass at `now` has deleted what
    `selectExpired` returns. -/
def survivors (policy : BackupPolicy) (now : Instant) (rows : List BucketBackup) :
    List BucketBackup :=
  rows.filter (fun b => b ∉ selectExpired (newestFirst rows) policy now)

theorem mem_survivors {policy : BackupPolicy} {now : Instant} {rows : List BucketBackup}
    (hn : (rows.map BucketBackup.manifestKey).Nodup) {b : BucketBackup} :
    b ∈ survivors policy now rows ↔ b ∈ rows ∧ (b.state = .complete →
      policy.cut.Keeps (RecentAt now) (completeStamps rows) b.stamp) := by
  rw [survivors, List.mem_filter, decide_eq_true_eq, mem_selectExpired hn]
  refine and_congr_right (fun hb => ?_)
  constructor
  · exact fun h hc => by_contra (fun hk => h ⟨hb, hc, hk⟩)
  · exact fun h hx => hx.2.2 (h hx.2.1)

/-- `left` is what passes up to time `t` may have left of `rows`: rows that
    were not kept at `t` are the only ones that may be missing. -/
structure Thinned (policy : BackupPolicy) (t : Instant) (rows left : List BucketBackup) :
    Prop where
  sub : ∀ b ∈ left, b ∈ rows
  missing : ∀ b ∈ rows, b ∉ left → b.state = .complete ∧
    ¬ policy.cut.Keeps (RecentAt t) (completeStamps rows) b.stamp
  nodup : (left.map BucketBackup.manifestKey).Nodup

theorem recentAt_of_le {t t' : Instant} (h : t ≤ t') (s : Stamp) (hr : RecentAt t' s) :
    RecentAt t s := lt_of_le_of_lt (Int.sub_le_sub_right h _) hr

section Passes

variable {policy : BackupPolicy} {t t' : Instant} {rows left added : List BucketBackup}

theorem Thinned.completeStamps_subset (h : Thinned policy t rows left) :
    completeStamps left ⊆ completeStamps rows := by
  intro s hs
  obtain ⟨b, hb, hc⟩ := mem_completeStamps.mp hs
  exact mem_completeStamps.mpr ⟨b, h.sub b hb, hc⟩

theorem Thinned.nodup_append (h : Thinned policy t rows left)
    (hn : ((rows ++ added).map BucketBackup.manifestKey).Nodup) :
    ((left ++ added).map BucketBackup.manifestKey).Nodup := by
  rw [List.map_append, List.nodup_append] at hn ⊢
  refine ⟨h.nodup, hn.2.1, fun a ha => hn.2.2 a ?_⟩
  obtain ⟨b, hb, rfl⟩ := List.mem_map.mp ha
  exact List.mem_map_of_mem (h.sub b hb)

/-- A pass over thinned rows keeps the rows it would have kept of all of them. -/
theorem Thinned.mem_survivors_iff (h : Thinned policy t rows left) (ht : t ≤ t')
    (hn : ((rows ++ added).map BucketBackup.manifestKey).Nodup) (b : BucketBackup) :
    b ∈ survivors policy t' (left ++ added) ↔ b ∈ survivors policy t' (rows ++ added) := by
  have hn' := h.nodup_append hn
  have hkept : ∀ s, policy.cut.Keeps (RecentAt t) (completeStamps rows) s →
      s ∈ completeStamps left := by
    intro s hs
    obtain ⟨c, hc, hcomplete, rfl⟩ := mem_completeStamps.mp hs.1
    refine mem_completeStamps.mpr ⟨c, by_contra (fun hnot => ?_), hcomplete, rfl⟩
    exact (h.missing c hc hnot).2 hs
  have hsame := Cut.keeps_union_iff (c := policy.cut) (recentAt_of_le ht) hkept
    h.completeStamps_subset (completeStamps added)
  rw [mem_survivors hn, mem_survivors hn', completeStamps_append, completeStamps_append]
  rw [List.mem_append, List.mem_append]
  constructor
  · rintro ⟨hb, hk⟩
    exact ⟨hb.imp_left (h.sub b), fun hc => (hsame _).mp (hk hc)⟩
  · rintro ⟨hb, hk⟩
    refine ⟨?_, fun hc => (hsame _).mpr (hk hc)⟩
    refine hb.imp_left (fun hrow => by_contra (fun hnot => ?_))
    obtain ⟨hc, hdrop⟩ := h.missing b hrow hnot
    refine hdrop ((hk hc).of_subset (recentAt_of_le ht) Finset.subset_union_left ?_)
    exact mem_completeStamps.mpr ⟨b, hrow, hc, rfl⟩

/-- No pass yet: nothing is missing. -/
theorem Thinned.refl (hn : (rows.map BucketBackup.manifestKey).Nodup) (t : Instant) :
    Thinned policy t rows rows :=
  ⟨fun _ h => h, fun _ h hnot => absurd h hnot, hn⟩

/-- One more pass leaves thinned rows thinned. -/
theorem Thinned.pass (h : Thinned policy t rows left) (ht : t ≤ t')
    (hn : ((rows ++ added).map BucketBackup.manifestKey).Nodup) :
    Thinned policy t' (rows ++ added) (survivors policy t' (left ++ added)) where
  sub b hb := ((mem_survivors hn).mp ((h.mem_survivors_iff ht hn b).mp hb)).1
  missing b hb hnot := by
    rw [h.mem_survivors_iff ht hn, mem_survivors hn, not_and] at hnot
    exact Classical.not_imp.mp (hnot hb)
  nodup := (h.nodup_append hn).sublist (List.filter_sublist.map _)

/-- A retention pass over one folder: the backups added since the one before,
    and its time. -/
structure Pass where
  added : List BucketBackup
  now : Instant

/-- The rows a series of passes leaves, each deleting what it selects. -/
def runPasses (policy : BackupPolicy) (rows : List BucketBackup) (passes : List Pass) :
    List BucketBackup :=
  passes.foldl (fun left p => survivors policy p.now (left ++ p.added)) rows

/-- Every backup that was ever taken. -/
def taken (rows : List BucketBackup) (passes : List Pass) : List BucketBackup :=
  rows ++ passes.flatMap Pass.added

/-- A run of passes over thinned rows ends with what its last pass alone would
    have left of everything ever taken. -/
theorem Thinned.mem_runPasses {passes : List Pass} {last : Pass} (h : Thinned policy t rows left)
    (ht : ∀ p ∈ passes ++ [last], t ≤ p.now)
    (hmono : (passes ++ [last]).Pairwise (fun p q => p.now ≤ q.now))
    (hn : ((taken rows (passes ++ [last])).map BucketBackup.manifestKey).Nodup)
    (b : BucketBackup) :
    b ∈ runPasses policy left (passes ++ [last]) ↔
      b ∈ survivors policy last.now (taken rows (passes ++ [last])) := by
  induction passes generalizing rows left t with
  | nil =>
    simp only [taken, List.nil_append, List.flatMap_cons, List.flatMap_nil, List.append_nil]
      at hn ⊢
    exact h.mem_survivors_iff (ht last (by simp)) hn b
  | cons p passes ih =>
    have htaken : taken rows (p :: (passes ++ [last])) =
        taken (rows ++ p.added) (passes ++ [last]) := by
      simp [taken]
    rw [List.cons_append] at hmono ht hn ⊢
    rw [htaken] at hn ⊢
    obtain ⟨hp, hmono'⟩ := List.pairwise_cons.mp hmono
    have hnp : ((rows ++ p.added).map BucketBackup.manifestKey).Nodup :=
      hn.sublist ((List.sublist_append_left _ _).map _)
    exact ih (h.pass (ht p List.mem_cons_self) hnp) hp hmono' hn

end Passes

/-- Thinning a folder at `t₁` before more backups arrive makes no difference to
    what a pass at `t₂` keeps; so a run of passes leaves what its last pass
    would leave of all backups ever taken, and a repeated pass deletes nothing.
    Rows are told apart by their key, as in the table. -/
theorem retention_passes_commute (policy : BackupPolicy) (rows added : List BucketBackup)
    (t₁ t₂ : Instant) (ht : t₁ ≤ t₂)
    (hn : ((rows ++ added).map BucketBackup.manifestKey).Nodup)
    (passes : List Pass) (last : Pass)
    (hmono : (passes ++ [last]).Pairwise (fun p q => p.now ≤ q.now))
    (hp : ((taken rows (passes ++ [last])).map BucketBackup.manifestKey).Nodup) :
    (∀ b, b ∈ survivors policy t₂ (survivors policy t₁ rows ++ added) ↔
      b ∈ survivors policy t₂ (rows ++ added)) ∧
    (∀ b, b ∈ runPasses policy rows (passes ++ [last]) ↔
      b ∈ survivors policy last.now (taken rows (passes ++ [last]))) ∧
    survivors policy t₁ (survivors policy t₁ rows) = survivors policy t₁ rows := by
  have hrows : (rows.map BucketBackup.manifestKey).Nodup :=
    hn.sublist ((List.sublist_append_left _ _).map _)
  have hthin : Thinned policy t₁ rows (survivors policy t₁ rows) := by
    have h : Thinned policy t₁ (rows ++ []) (survivors policy t₁ (rows ++ [])) :=
      (Thinned.refl hrows t₁).pass le_rfl (by rwa [List.append_nil])
    simpa only [List.append_nil] using h
  refine ⟨hthin.mem_survivors_iff ht hn, ?_, ?_⟩
  · -- every time of the run is at or after that of its first pass
    obtain ⟨t, htimes⟩ : ∃ t : Instant, ∀ p ∈ passes ++ [last], t ≤ p.now := by
      rcases passes with _ | ⟨p, rest⟩
      · exact ⟨last.now, by simp⟩
      · refine ⟨p.now, fun q hq => ?_⟩
        rcases List.mem_cons.mp hq with rfl | hq
        · exact le_rfl
        · exact (List.pairwise_cons.mp hmono).1 q hq
    exact (Thinned.refl hrows t).mem_runPasses htimes hmono hp
  · have hsame : ∀ b, b ∈ survivors policy t₁ (survivors policy t₁ rows ++ []) ↔
        b ∈ survivors policy t₁ (rows ++ []) :=
      hthin.mem_survivors_iff le_rfl (by rwa [List.append_nil])
    simp only [List.append_nil] at hsame
    apply List.filter_eq_self.mpr
    intro b hb
    exact (List.mem_filter.mp ((hsame b).mpr hb)).2

theorem retention_passes_commute_three_days :
    let row : Char → ℤ → BucketBackup := fun key day =>
      { manifestKey := [key], archiveKey := [key], dbName := [], takenAt := 86400 * day,
        state := .complete }
    let policy : BackupPolicy := ⟨24, 1, 0, -1⟩
    survivors policy (ofUnix 180000) [row 'a' 0, row 'b' 1] = [row 'b' 1] ∧
    ∀ b, b ∈ survivors policy (ofUnix 270000)
        (survivors policy (ofUnix 180000) [row 'a' 0, row 'b' 1] ++ [row 'c' 2]) ↔
      b ∈ survivors policy (ofUnix 270000) ([row 'a' 0, row 'b' 1] ++ [row 'c' 2]) :=
  ⟨by decide, (retention_passes_commute ⟨24, 1, 0, -1⟩ _ _ (ofUnix 180000) (ofUnix 270000)
    (by decide) (by decide) [⟨[], ofUnix 180000⟩] ⟨[], ofUnix 270000⟩ (by decide) (by decide)).1⟩

end Pgfy
