import Mathlib

/-! # Retention series

    A retention series keeps, of a finite set of timestamped items, the newest
    item, every item a predicate calls recent, the newest item of each of the
    `D` greatest days, and, among the items of the remaining days, the newest
    item of each of the `W` greatest weeks.

    The library states the series over arbitrary linear orders and proves the
    three facts a deleting process needs:
    - a kept item of a larger set is kept in every subset that contains it,
    - dropping items that are not kept changes nothing,
    - items can be added in decreasing order one at a time (`…_insert_of_lt`),
      which is what a greedy scan from the newest item does.
-/

namespace Series

/-! ### The greatest classes of a finite set -/

section Top

variable {γ : Type} [LinearOrder γ]

/-- The `n` greatest elements of a finite set. -/
def top (n : ℕ) (s : Finset γ) : Finset γ :=
  s.filter (fun d => (s.filter (d < ·)).card < n)

theorem mem_top {n : ℕ} {s : Finset γ} {d : γ} :
    d ∈ top n s ↔ d ∈ s ∧ (s.filter (d < ·)).card < n := by
  simp [top]

theorem top_subset (n : ℕ) (s : Finset γ) : top n s ⊆ s :=
  Finset.filter_subset _ _

/-- A greatest element of a set is one of every subset that contains it. -/
theorem mem_top_of_subset {n : ℕ} {s t : Finset γ} {d : γ}
    (hst : s ⊆ t) (hd : d ∈ s) (h : d ∈ top n t) : d ∈ top n s := by
  rw [mem_top] at h ⊢
  refine ⟨hd, lt_of_le_of_lt (Finset.card_le_card ?_) h.2⟩
  exact Finset.filter_subset_filter _ hst

theorem top_eq_self {n : ℕ} {s : Finset γ} (h : s.card ≤ n) : top n s = s := by
  refine Finset.Subset.antisymm (top_subset n s) (fun d hd => ?_)
  rw [mem_top]
  refine ⟨hd, lt_of_lt_of_le (Finset.card_lt_card ?_) h⟩
  refine ⟨Finset.filter_subset _ _, fun hsub => ?_⟩
  exact lt_irrefl d (Finset.mem_filter.mp (hsub hd)).2

/-- A set with `n` elements has `n` greatest ones. -/
theorem le_card_top {n : ℕ} {s : Finset γ} (h : n ≤ s.card) : n ≤ (top n s).card := by
  induction n generalizing s with
  | zero => exact Nat.zero_le _
  | succ n ih =>
    have hne : s.Nonempty := Finset.card_pos.mp (by omega)
    set m := s.max' hne with hm
    have hmem : m ∈ s := s.max'_mem hne
    have hle : ∀ x ∈ s, x ≤ m := fun x hx => s.le_max' x hx
    have hcard : n ≤ (s.erase m).card := by
      rw [Finset.card_erase_of_mem hmem]; omega
    -- the maximum, and the `n` greatest elements of what is left below it
    have hsub : insert m (top n (s.erase m)) ⊆ top (n + 1) s := by
      intro d hd
      rcases Finset.mem_insert.mp hd with rfl | hd
      · rw [mem_top]
        refine ⟨hmem, ?_⟩
        rw [Finset.filter_eq_empty_iff.mpr (fun x hx => not_lt.mpr (hle x hx))]
        simp
      · rw [mem_top] at hd ⊢
        refine ⟨Finset.mem_of_mem_erase hd.1, ?_⟩
        have : s.filter (d < ·) ⊆ insert m ((s.erase m).filter (d < ·)) := by
          intro x hx
          rw [Finset.mem_filter] at hx
          by_cases hxm : x = m
          · exact hxm ▸ Finset.mem_insert_self _ _
          · refine Finset.mem_insert_of_mem (Finset.mem_filter.mpr ⟨?_, hx.2⟩)
            exact Finset.mem_erase.mpr ⟨hxm, hx.1⟩
        have h1 := Finset.card_le_card this
        have h2 := Finset.card_insert_le m ((s.erase m).filter (d < ·))
        omega
    have hnot : m ∉ top n (s.erase m) := fun hin =>
      Finset.notMem_erase m s (top_subset _ _ hin)
    have h1 := Finset.card_le_card hsub
    rw [Finset.card_insert_of_notMem hnot] at h1
    have h2 := ih hcard
    omega

/-- A set between the `n` greatest elements and the whole has the same `n`
    greatest elements. -/
theorem top_eq_of_between {n : ℕ} {s t : Finset γ}
    (hts : top n t ⊆ s) (hst : s ⊆ t) : top n s = top n t := by
  refine Finset.Subset.antisymm (fun d hd => ?_)
    (fun d hd => mem_top_of_subset hst (hts hd) hd)
  rw [mem_top] at hd
  by_contra hnot
  have hge : n ≤ (t.filter (d < ·)).card := by
    by_contra hlt
    exact hnot (mem_top.mpr ⟨hst hd.1, not_le.mp hlt⟩)
  -- the `n` greatest elements above `d` are greatest in `t`, hence all in `s`
  have hsub : top n (t.filter (d < ·)) ⊆ s.filter (d < ·) := by
    intro e he
    rw [mem_top, Finset.mem_filter] at he
    obtain ⟨⟨het, hde⟩, hcard⟩ := he
    refine Finset.mem_filter.mpr ⟨hts (mem_top.mpr ⟨het, ?_⟩), hde⟩
    have : t.filter (e < ·) ⊆ (t.filter (d < ·)).filter (e < ·) := by
      intro x hx
      rw [Finset.mem_filter] at hx
      exact Finset.mem_filter.mpr ⟨Finset.mem_filter.mpr ⟨hx.1, hde.trans hx.2⟩, hx.2⟩
    exact lt_of_le_of_lt (Finset.card_le_card this) hcard
  have h1 := Finset.card_le_card hsub
  have h2 := le_card_top hge
  omega

theorem card_top_lt_iff {n : ℕ} {s : Finset γ} : (top n s).card < n ↔ s.card < n := by
  constructor
  · intro h
    by_contra hle
    have := le_card_top (not_lt.mp hle)
    omega
  · intro h
    exact lt_of_le_of_lt (Finset.card_le_card (top_subset n s)) h

/-- Adding an element not above any other: it joins the greatest ones only
    while there is room. -/
theorem top_insert_of_le {n : ℕ} {s : Finset γ} {d : γ} (hle : ∀ e ∈ s, d ≤ e) :
    top n (insert d s) = if s.card < n then insert d s else top n s := by
  by_cases hd : d ∈ s
  · rw [Finset.insert_eq_of_mem hd]
    split
    · next h => exact top_eq_self h.le
    · rfl
  split
  · next h =>
    exact top_eq_self (by rw [Finset.card_insert_of_notMem hd]; exact h)
  · next h =>
    refine (top_eq_of_between (fun e he => ?_) (Finset.subset_insert d s)).symm
    rw [mem_top] at he
    rcases Finset.mem_insert.mp he.1 with rfl | hes
    · exfalso
      have : s ⊆ (insert e s).filter (e < ·) := by
        intro x hx
        refine Finset.mem_filter.mpr ⟨Finset.mem_insert_of_mem hx, ?_⟩
        exact lt_of_le_of_ne (hle x hx) (fun h => hd (h ▸ hx))
      have := Finset.card_le_card this
      omega
    · exact hes

end Top

/-! ### The newest item of each of the greatest classes -/

section Leaders

variable {α γ : Type} [LinearOrder α] [LinearOrder γ]

/-- The greatest item of each of the `n` greatest classes that occur in `s`. -/
def leaders (f : α → γ) (n : ℕ) (s : Finset α) : Finset α :=
  s.filter (fun b => f b ∈ top n (s.image f) ∧ ∀ c ∈ s, f c = f b → c ≤ b)

theorem mem_leaders {f : α → γ} {n : ℕ} {s : Finset α} {b : α} :
    b ∈ leaders f n s ↔
      b ∈ s ∧ f b ∈ top n (s.image f) ∧ ∀ c ∈ s, f c = f b → c ≤ b := by
  simp [leaders]

theorem leaders_subset (f : α → γ) (n : ℕ) (s : Finset α) : leaders f n s ⊆ s :=
  Finset.filter_subset _ _

theorem mem_leaders_of_subset {f : α → γ} {n : ℕ} {s t : Finset α} {b : α}
    (hst : s ⊆ t) (hb : b ∈ s) (h : b ∈ leaders f n t) : b ∈ leaders f n s := by
  rw [mem_leaders] at h ⊢
  refine ⟨hb, ?_, fun c hc hfc => h.2.2 c (hst hc) hfc⟩
  exact mem_top_of_subset (Finset.image_subset_image hst) (Finset.mem_image_of_mem f hb) h.2.1

/-- Every one of the greatest classes has a leader. -/
theorem exists_leader {f : α → γ} {n : ℕ} {s : Finset α} {d : γ}
    (h : d ∈ top n (s.image f)) : ∃ b ∈ leaders f n s, f b = d ∧ ∀ c ∈ s, f c = d → c ≤ b := by
  obtain ⟨c, hc, hcd⟩ := Finset.mem_image.mp (top_subset _ _ h)
  have hne : (s.filter (fun x => f x = d)).Nonempty := ⟨c, Finset.mem_filter.mpr ⟨hc, hcd⟩⟩
  set b := (s.filter (fun x => f x = d)).max' hne with hb
  have hmem : b ∈ s ∧ f b = d := Finset.mem_filter.mp (Finset.max'_mem _ hne)
  have hmax : ∀ c ∈ s, f c = d → c ≤ b := fun x hx hxd =>
    Finset.le_max' _ x (Finset.mem_filter.mpr ⟨hx, hxd⟩)
  refine ⟨b, mem_leaders.mpr ⟨hmem.1, hmem.2 ▸ h, ?_⟩, hmem.2, hmax⟩
  intro x hx hxb
  exact hmax x hx (hxb.trans hmem.2)

/-- A set between the leaders and the whole has the same greatest classes. -/
theorem top_image_of_between {f : α → γ} {n : ℕ} {s t : Finset α}
    (hts : leaders f n t ⊆ s) (hst : s ⊆ t) :
    top n (s.image f) = top n (t.image f) := by
  refine top_eq_of_between (fun d hd => ?_) (Finset.image_subset_image hst)
  obtain ⟨b, hb, hbd, -⟩ := exists_leader hd
  exact hbd ▸ Finset.mem_image_of_mem f (hts hb)

theorem leaders_eq_of_between {f : α → γ} {n : ℕ} {s t : Finset α}
    (hts : leaders f n t ⊆ s) (hst : s ⊆ t) : leaders f n s = leaders f n t := by
  refine Finset.Subset.antisymm (fun b hb => ?_)
    (fun b hb => mem_leaders_of_subset hst (hts hb) hb)
  rw [mem_leaders] at hb
  have htop : f b ∈ top n (t.image f) := top_image_of_between hts hst ▸ hb.2.1
  -- the leader of `b`'s class in `t` is in `s`, so it is not above `b`
  obtain ⟨x, hx, hxb, hmax⟩ := exists_leader htop
  have hle : x ≤ b := hb.2.2 x (hts hx) hxb
  exact mem_leaders.mpr ⟨hst hb.1, htop, fun c hc hcb => (hmax c hc hcb).trans hle⟩

variable {f : α → γ} (hf : Monotone f)
include hf

theorem image_le_of_lt {s : Finset α} {x : α} (hx : ∀ c ∈ s, x < c) :
    ∀ e ∈ s.image f, f x ≤ e := by
  intro e he
  obtain ⟨c, hc, rfl⟩ := Finset.mem_image.mp he
  exact hf (hx c hc).le

theorem top_image_insert_of_lt {n : ℕ} {s : Finset α} {x : α} (hx : ∀ c ∈ s, x < c) :
    top n ((insert x s).image f) =
      if (s.image f).card < n then insert (f x) (top n (s.image f)) else top n (s.image f) := by
  rw [Finset.image_insert, top_insert_of_le (image_le_of_lt hf hx)]
  split
  · next h => rw [top_eq_self h.le]
  · rfl

/-- Adding an item below all others: it leads its class exactly when the class
    is new and there is room for one more. -/
theorem mem_leaders_insert_of_lt {n : ℕ} {s : Finset α} {x b : α} (hx : ∀ c ∈ s, x < c) :
    b ∈ leaders f n (insert x s) ↔
      (b = x ∧ f x ∉ s.image f ∧ (s.image f).card < n) ∨ b ∈ leaders f n s := by
  have hxs : x ∉ s := fun h => lt_irrefl x (hx x h)
  constructor
  · intro h
    by_cases hbs : b ∈ s
    · exact Or.inr (mem_leaders_of_subset (Finset.subset_insert x s) hbs h)
    rw [mem_leaders] at h
    obtain ⟨hmem, htop, hmax⟩ := h
    obtain rfl : b = x := (Finset.mem_insert.mp hmem).resolve_right hbs
    have hnew : f b ∉ s.image f := by
      intro hin
      obtain ⟨c, hc, hcb⟩ := Finset.mem_image.mp hin
      exact absurd (hmax c (Finset.mem_insert_of_mem hc) hcb) (not_le.mpr (hx c hc))
    refine Or.inl ⟨rfl, hnew, ?_⟩
    by_contra hroom
    rw [top_image_insert_of_lt hf hx, if_neg hroom] at htop
    exact hnew (top_subset _ _ htop)
  · rintro (⟨rfl, hnew, hroom⟩ | h)
    · refine mem_leaders.mpr ⟨Finset.mem_insert_self _ _, ?_, fun c hc hcb => ?_⟩
      · rw [top_image_insert_of_lt hf hx, if_pos hroom]
        exact Finset.mem_insert_self _ _
      · rcases Finset.mem_insert.mp hc with rfl | hc
        · exact le_rfl
        · exact absurd (hcb ▸ Finset.mem_image_of_mem f hc) hnew
    · rw [mem_leaders] at h ⊢
      obtain ⟨hmem, htop, hmax⟩ := h
      refine ⟨Finset.mem_insert_of_mem hmem, ?_, fun c hc hcb => ?_⟩
      · rw [top_image_insert_of_lt hf hx]
        split
        · exact Finset.mem_insert_of_mem htop
        · exact htop
      · rcases Finset.mem_insert.mp hc with rfl | hc
        · exact (hx b hmem).le
        · exact hmax c hc hcb

end Leaders

/-! ### The series -/

section Series

variable {α δ ω : Type} [LinearOrder α] [LinearOrder δ] [LinearOrder ω]

/-- How a series is cut: the number of days and of weeks that keep an item, the
    day of an item and the week of a day. -/
structure Cut (α δ ω : Type) where
  /-- number of days that keep their newest item -/
  daily : ℕ
  /-- number of weeks that keep their newest item -/
  weekly : ℕ
  /-- the day an item was taken on -/
  day : α → δ
  /-- the week a day belongs to -/
  week : δ → ω

namespace Cut

variable (c : Cut α δ ω)

/-- The week an item was taken in. -/
def weekOf (b : α) : ω := c.week (c.day b)

/-- The items whose day is not among the daily ones. -/
def older (s : Finset α) : Finset α :=
  s.filter (fun b => c.day b ∉ top c.daily (s.image c.day))

/-- What the series keeps of `s`, `recent` saying which items are kept whole. -/
def Keeps (recent : α → Prop) (s : Finset α) (b : α) : Prop :=
  b ∈ s ∧ ((∀ x ∈ s, x ≤ b) ∨ recent b ∨ b ∈ leaders c.day c.daily s ∨
    b ∈ leaders c.weekOf c.weekly (c.older s))

variable {c}

omit [LinearOrder α] [LinearOrder ω] in
theorem mem_older {s : Finset α} {b : α} :
    b ∈ c.older s ↔ b ∈ s ∧ c.day b ∉ top c.daily (s.image c.day) := by
  simp [older]

omit [LinearOrder α] [LinearOrder ω] in
theorem older_subset_of_subset {s t : Finset α} (hst : s ⊆ t) : c.older s ⊆ c.older t := by
  intro b hb
  rw [mem_older] at hb ⊢
  refine ⟨hst hb.1, fun h => hb.2 ?_⟩
  exact mem_top_of_subset (Finset.image_subset_image hst) (Finset.mem_image_of_mem _ hb.1) h

/-- An item kept of a larger set at a later time is kept of every smaller set
    that contains it at an earlier time. -/
theorem Keeps.of_subset {recent later : α → Prop} (hr : ∀ b, later b → recent b)
    {s t : Finset α} (hst : s ⊆ t) {b : α} (hb : b ∈ s) (h : c.Keeps later t b) :
    c.Keeps recent s b := by
  refine ⟨hb, ?_⟩
  rcases h.2 with hnew | hrec | hday | hweek
  · exact Or.inl (fun x hx => hnew x (hst hx))
  · exact Or.inr (Or.inl (hr b hrec))
  · exact Or.inr (Or.inr (Or.inl (mem_leaders_of_subset hst hb hday)))
  · have hold := older_subset_of_subset (c := c) hst
    by_cases hd : c.day b ∈ top c.daily (s.image c.day)
    · -- the day of `b` has moved up into the daily series; `b` leads its week
      -- among the older items, hence its day
      refine Or.inr (Or.inr (Or.inl (mem_leaders.mpr ⟨hb, hd, fun x hx hxb => ?_⟩)))
      rw [mem_leaders, mem_older] at hweek
      obtain ⟨⟨-, hnot⟩, -, hmax⟩ := hweek
      exact hmax x (mem_older.mpr ⟨hst hx, hxb ▸ hnot⟩) (congrArg c.week hxb)
    · refine Or.inr (Or.inr (Or.inr ?_))
      exact mem_leaders_of_subset hold (mem_older.mpr ⟨hb, hd⟩) hweek

/-- Dropping items the series does not keep does not change what it keeps. -/
theorem keeps_iff_of_between {recent : α → Prop} {s t : Finset α}
    (hts : ∀ b, c.Keeps recent t b → b ∈ s) (hst : s ⊆ t) (b : α) :
    c.Keeps recent s b ↔ c.Keeps recent t b := by
  constructor
  swap
  · intro h
    exact h.of_subset (fun _ hx => hx) hst (hts b h)
  have hdays : leaders c.day c.daily t ⊆ s := fun x hx =>
    hts x ⟨leaders_subset _ _ _ hx, Or.inr (Or.inr (Or.inl hx))⟩
  have hold : c.older s = s ∩ c.older t := by
    ext x
    rw [Finset.mem_inter, mem_older, mem_older, top_image_of_between hdays hst]
    exact ⟨fun h => ⟨h.1, hst h.1, h.2⟩, fun h => ⟨h.1, h.2.2⟩⟩
  have hweeks : leaders c.weekOf c.weekly (c.older t) ⊆ c.older s := by
    intro x hx
    have hxt := leaders_subset _ _ _ hx
    rw [hold]
    refine Finset.mem_inter.mpr ⟨hts x ⟨(mem_older.mp hxt).1, ?_⟩, hxt⟩
    exact Or.inr (Or.inr (Or.inr hx))
  rintro ⟨hbs, h⟩
  refine ⟨hst hbs, ?_⟩
  rcases h with hnew | hrec | hday | hweek
  · -- the newest item of `t` is kept, so it is in `s`
    have hne : t.Nonempty := ⟨b, hst hbs⟩
    have hmem : t.max' hne ∈ s :=
      hts _ ⟨t.max'_mem hne, Or.inl (fun x hx => t.le_max' x hx)⟩
    exact Or.inl (fun x hx => (t.le_max' x hx).trans (hnew _ hmem))
  · exact Or.inr (Or.inl hrec)
  · rw [leaders_eq_of_between hdays hst] at hday
    exact Or.inr (Or.inr (Or.inl hday))
  · rw [leaders_eq_of_between hweeks (older_subset_of_subset hst)] at hweek
    exact Or.inr (Or.inr (Or.inr hweek))

omit [LinearOrder ω] in
/-- Adding an item below all others: it is one of the older items exactly when
    its day finds no room in the daily series. -/
theorem older_insert_of_lt (hday : Monotone c.day) {s : Finset α} {x : α}
    (hx : ∀ y ∈ s, x < y) :
    c.older (insert x s) =
      if ¬ (s.image c.day).card < c.daily ∧ c.day x ∉ top c.daily (s.image c.day)
      then insert x (c.older s) else c.older s := by
  ext b
  rw [mem_older, top_image_insert_of_lt hday hx]
  by_cases hroom : (s.image c.day).card < c.daily
  · -- with room left every day is a daily one, before and after
    have hall : top c.daily (s.image c.day) = s.image c.day := top_eq_self hroom.le
    rw [if_pos hroom, if_neg (fun h => h.1 hroom), mem_older, hall]
    constructor
    · rintro ⟨hb, hnot⟩
      refine absurd ?_ hnot
      rcases Finset.mem_insert.mp hb with rfl | hb
      · exact Finset.mem_insert_self _ _
      · exact Finset.mem_insert_of_mem (Finset.mem_image_of_mem _ hb)
    · rintro ⟨hb, hnot⟩
      exact absurd (Finset.mem_image_of_mem _ hb) hnot
  rw [if_neg hroom]
  by_cases hin : c.day x ∈ top c.daily (s.image c.day)
  · rw [if_neg (fun h => h.2 hin), mem_older, Finset.mem_insert]
    refine and_congr_left (fun hb => or_iff_right ?_)
    rintro rfl
    exact hb hin
  · rw [if_pos ⟨hroom, hin⟩, Finset.mem_insert, Finset.mem_insert, mem_older, or_and_right]
    exact or_congr_left (and_iff_left_of_imp (fun h => h ▸ hin))

/-- Thinning a set to what is kept of it before more items arrive makes no
    difference to what a later pass keeps. -/
theorem keeps_union_iff {recent later : α → Prop} (hr : ∀ b, later b → recent b)
    {s k : Finset α} (hk : ∀ b, c.Keeps recent s b → b ∈ k) (hks : k ⊆ s)
    (n : Finset α) (b : α) :
    c.Keeps later (k ∪ n) b ↔ c.Keeps later (s ∪ n) b := by
  refine keeps_iff_of_between (fun x hx => ?_) (Finset.union_subset_union_left hks) b
  rcases Finset.mem_union.mp hx.1 with hs | hn
  · exact Finset.mem_union_left _ (hk x (hx.of_subset hr Finset.subset_union_left hs))
  · exact Finset.mem_union_right _ hn

end Cut

end Series

end Series
