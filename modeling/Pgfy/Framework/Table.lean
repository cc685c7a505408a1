import Mathlib

/-! # Tables

    A table is a list of rows with a key column. The operations are those of
    SQL statements that address rows by key: look one up, insert a row or
    replace the one with its key, change every row with a key, delete. Each
    keeps the keys distinct.
-/

namespace Table

variable {α κ : Type} [DecidableEq κ] (key : α → κ)

/-- The row with key `k`. -/
def find (k : κ) (rows : List α) : Option α := rows.find? (fun r => key r = k)

/-- Changes every row with key `k`. -/
def modify (k : κ) (f : α → α) (rows : List α) : List α :=
  rows.map (fun r => if key r = k then f r else r)

/-- Replaces the row with key `k` by `f` of it, or adds `f none` if there is none. -/
def upsert (k : κ) (f : Option α → α) (rows : List α) : List α :=
  match find key k rows with
  | some r => modify key k (fun _ => f (some r)) rows
  | none => rows ++ [f none]

/-- Deletes every row with key `k`. -/
def delete (k : κ) (rows : List α) : List α := rows.filter (fun r => key r ≠ k)

variable {key} {k : κ} {f : α → α} {rows : List α} {r : α}

theorem find_eq_some (h : find key k rows = some r) : r ∈ rows ∧ key r = k :=
  ⟨List.mem_of_find?_eq_some h, by simpa using List.find?_some h⟩

theorem find_eq_none : find key k rows = none ↔ ∀ r ∈ rows, key r ≠ k := by
  simp [find]

/-- With distinct keys a row is found under its key. -/
theorem find_of_mem (hn : (rows.map key).Nodup) (h : r ∈ rows) :
    find key (key r) rows = some r := by
  cases hf : find key (key r) rows with
  | none => exact absurd rfl (find_eq_none.mp hf r h)
  | some r' =>
    obtain ⟨hmem, hkey⟩ := find_eq_some hf
    rw [List.inj_on_of_nodup_map hn hmem h hkey]

omit [DecidableEq κ] in
/-- At most one row satisfies `p` if rows that do have the same key. -/
theorem countP_le_one {p : α → Bool} (hn : (rows.map key).Nodup)
    (h : ∀ r ∈ rows, ∀ o ∈ rows, p r = true → p o = true → key r = key o) : rows.countP p ≤ 1 := by
  rw [List.countP_eq_length_filter]
  rcases hrows : rows.filter p with _ | ⟨r, _ | ⟨o, rest⟩⟩
  · exact Nat.zero_le 1
  · exact le_rfl
  · -- the first two rows would have one key
    have hmem : ∀ x ∈ [r, o], x ∈ rows ∧ p x = true := by
      intro x hx
      exact List.mem_filter.mp (hrows ▸ List.mem_append_left rest hx)
    obtain ⟨hr, hpr⟩ := hmem r (by simp)
    obtain ⟨ho, hpo⟩ := hmem o (by simp)
    have hids : ((rows.filter p).map key).Nodup := hn.sublist (List.filter_sublist.map key)
    rw [hrows] at hids
    exact absurd (h r hr o ho hpr hpo) (by simp_all)

theorem mem_modify :
    r ∈ modify key k f rows ↔ ∃ r' ∈ rows, r = if key r' = k then f r' else r' := by
  simp only [modify, List.mem_map]
  exact ⟨fun ⟨a, ha, h⟩ => ⟨a, ha, h.symm⟩, fun ⟨a, ha, h⟩ => ⟨a, ha, h.symm⟩⟩

theorem map_key_modify (hf : ∀ r ∈ rows, key r = k → key (f r) = k) :
    (modify key k f rows).map key = rows.map key := by
  simp only [modify, List.map_map]
  refine List.map_congr_left (fun r hr => ?_)
  simp only [Function.comp]
  split
  · next h => rw [hf r hr h, h]
  · rfl

/-- The first row with a key is changed with the others. -/
theorem find_modify (hf : ∀ r, key r = k → key (f r) = k) :
    find key k (modify key k f rows) = (find key k rows).map f := by
  induction rows with
  | nil => rfl
  | cons x rows ih =>
    simp only [find, modify, List.map_cons, List.find?_cons] at ih ⊢
    by_cases hx : key x = k
    · simp [hx, hf x hx]
    · simp only [hx, if_false, decide_false]
      exact ih

/-- Changing the rows with one key leaves what is found under another. -/
theorem find_modify_of_ne {k k' : κ} (hf : ∀ r, key r = k → key (f r) = k) (hne : k' ≠ k) :
    find key k' (modify key k f rows) = find key k' rows := by
  induction rows with
  | nil => rfl
  | cons x rows ih =>
    simp only [find, modify, List.map_cons, List.find?_cons] at ih ⊢
    by_cases hx : key x = k
    · simp [hx, hf x hx, hne.symm, ih]
    · simp only [hx, if_false]
      rw [ih]

/-- A change that a view of the rows does not show. -/
theorem find_modify_map {β : Type} {k k' : κ} {v : α → β} (hf : ∀ r, key r = k → key (f r) = k)
    (hv : ∀ r, v (f r) = v r) :
    (find key k' (modify key k f rows)).map v = (find key k' rows).map v := by
  by_cases hk : k' = k
  · subst hk
    rw [find_modify hf, Option.map_map]
    congr 1
    funext r
    exact hv r
  · rw [find_modify_of_ne hf hk]

@[simp] theorem mem_delete {k : κ} {rows : List α} {r : α} :
    r ∈ delete key k rows ↔ r ∈ rows ∧ key r ≠ k := by
  simp [delete]

theorem find_delete_of_ne {k k' : κ} (h : k ≠ k') :
    find key k (delete key k' rows) = find key k rows := by
  unfold find delete
  rw [List.find?_filter]
  congr 1
  funext r
  by_cases hk : key r = k
  · simp [hk, h]
  · simp [hk]

theorem nodup_delete (h : (rows.map key).Nodup) : ((delete key k rows).map key).Nodup :=
  h.sublist (List.Sublist.map key List.filter_sublist)

theorem nodup_upsert {f : Option α → α} (hf : key (f (find key k rows)) = k)
    (h : (rows.map key).Nodup) : ((upsert key k f rows).map key).Nodup := by
  unfold upsert
  cases hfind : find key k rows with
  | some r =>
    rw [hfind] at hf
    dsimp only
    rw [map_key_modify (fun _ _ _ => hf)]
    exact h
  | none =>
    rw [hfind] at hf
    have hnot : k ∉ rows.map key := by
      intro hk
      obtain ⟨r, hr, hrk⟩ := List.mem_map.mp hk
      exact find_eq_none.mp hfind r hr hrk
    simp only [List.map_append, List.map_cons, List.map_nil, hf]
    exact List.nodup_append.mpr ⟨h, List.nodup_singleton _, by
      rintro a ha b hb rfl
      exact hnot (List.mem_singleton.mp hb ▸ ha)⟩

/-- After an upsert the row with its key is the new one; the others stay. -/
theorem mem_upsert {f : Option α → α} :
    r ∈ upsert key k f rows ↔ r = f (find key k rows) ∨ (r ∈ rows ∧ key r ≠ k) := by
  unfold upsert
  cases hfind : find key k rows with
  | none =>
    have hne := find_eq_none.mp hfind
    simp only [List.mem_append, List.mem_singleton]
    exact ⟨fun o => o.elim (fun hr => Or.inr ⟨hr, hne r hr⟩) Or.inl,
      fun o => o.elim Or.inr (fun hr => Or.inl hr.1)⟩
  | some r₀ =>
    obtain ⟨hmem, hkey⟩ := find_eq_some hfind
    dsimp only
    rw [mem_modify]
    constructor
    · rintro ⟨r', hr', rfl⟩
      split
      · exact Or.inl rfl
      · next hk => exact Or.inr ⟨hr', hk⟩
    · rintro (rfl | ⟨hr, hk⟩)
      · exact ⟨r₀, hmem, by rw [if_pos hkey]⟩
      · exact ⟨r, hr, by rw [if_neg hk]⟩

/-- After an upsert the new row is found under its key. -/
theorem find_upsert_self {f : Option α → α} (hf : key (f (find key k rows)) = k) :
    find key k (upsert key k f rows) = some (f (find key k rows)) := by
  unfold upsert
  cases hfind : find key k rows with
  | none =>
    rw [hfind] at hf
    have hnone : rows.find? (fun r => decide (key r = k)) = none := hfind
    rw [find, List.find?_append, hnone, Option.none_or]
    simp [hf]
  | some r =>
    rw [hfind] at hf
    show find key k (modify key k (fun _ => f (some r)) rows) = some (f (some r))
    -- the first row with the key is the one that was found
    induction rows with
    | nil => cases hfind
    | cons x rows ih =>
      simp only [find, modify, List.map_cons, List.find?_cons] at ih hfind ⊢
      by_cases hx : key x = k
      · simp [hx, hf]
      · simp only [hx, if_false, decide_false] at hfind ⊢
        exact ih hfind

/-- An upsert under one key leaves what is found under another. -/
theorem find_upsert_of_ne {k k' : κ} {f : Option α → α} (hf : key (f (find key k rows)) = k)
    (hne : k' ≠ k) : find key k' (upsert key k f rows) = find key k' rows := by
  unfold upsert
  cases hfind : find key k rows with
  | none =>
    rw [hfind] at hf
    rw [find, find, List.find?_append]
    have hnone : [f none].find? (fun r => decide (key r = k')) = none := by
      simp [hf, hne.symm]
    rw [hnone, Option.or_none]
  | some r =>
    rw [hfind] at hf
    exact find_modify_of_ne (fun _ _ => hf) hne

/-! ### Rows made one by one -/

section
variable {β : Type} {R : α → β → Prop} {as : List α} {bs : List β}

theorem exists_left {b : β} (h : List.Forall₂ R as bs) (hb : b ∈ bs) : ∃ a ∈ as, R a b := by
  induction h with
  | nil => cases hb
  | cons hab rest ih =>
    rcases List.mem_cons.mp hb with rfl | hb
    · exact ⟨_, List.mem_cons_self, hab⟩
    · obtain ⟨a, ha, hr⟩ := ih hb
      exact ⟨a, List.mem_cons_of_mem _ ha, hr⟩

theorem exists_right {a : α} (h : List.Forall₂ R as bs) (ha : a ∈ as) : ∃ b ∈ bs, R a b := by
  obtain ⟨b, hb, hr⟩ := exists_left h.flip ha
  exact ⟨b, hb, hr⟩

end

end Table
