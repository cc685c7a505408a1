import Pgfy.Storage.Layout

/-! # Daily copies of management storage

    Once a day the management database is copied into a directory beside it, and
    all but the last seven copies in the order of their names are removed. The
    directory holds whatever it holds: files of other names, copies that were made
    under another clock, directories and links.

    `recent_iff` says of the sorted names which are among the last seven;
    `mem_removeAll` what the removals leave.
-/

namespace Pgfy

open Calendar Storage

/-! ### The directory -/

/-- What an entry of a directory is. -/
inductive EntryKind where
  | file
  /-- a link to something that is not there -/
  | brokenLink
  | emptyDirectory
  /-- anything `Remove` refuses to remove: a directory with something in it, a
      file the system holds on to -/
  | unremovable
deriving DecidableEq

def EntryKind.removable : EntryKind → Bool
  | unremovable => false
  | _ => true

/-- The entries of the copy directory, each name once. -/
structure CopyDir where
  entries : List (Text × EntryKind)
  nodup : (entries.map Prod.fst).Nodup

namespace CopyDir

def names (d : CopyDir) : List Text := d.entries.map Prod.fst

/-- `Stat` finds something under a name. -/
def visible (d : CopyDir) (name : Text) : Bool :=
  match Table.find Prod.fst name d.entries with
  | some (_, kind) => kind ≠ .brokenLink
  | none => false

/-- `Remove` of a name, whose error is ignored. -/
def remove (d : CopyDir) (name : Text) : CopyDir where
  entries := d.entries.filter (fun e => e.1 ≠ name ∨ ¬ e.2.removable)
  nodup := d.nodup.sublist (List.Sublist.map _ List.filter_sublist)

def removeAll (d : CopyDir) (names : List Text) : CopyDir := names.foldl remove d

/-- A file under a name, in place of what was there. -/
def put (d : CopyDir) (name : Text) : CopyDir where
  entries := Table.upsert Prod.fst name (fun _ => (name, .file)) d.entries
  nodup := Table.nodup_upsert rfl d.nodup

end CopyDir

/-! ### Copying -/

/-- A name matches `pgfy-*` followed by a suffix. -/
def matchesCopy (suffix name : Text) : Bool :=
  "pgfy-".toList.isPrefixOf name && suffix.isSuffixOf (name.drop 5)

/-- The names that match, in order: `Glob` and then `Strings`. -/
def CopyDir.glob (d : CopyDir) (suffix : Text) : List Text :=
  (d.names.filter (matchesCopy suffix)).insertionSort (· ≤ ·)

def CopyDir.copies (d : CopyDir) : List Text := d.glob ".db".toList

def dailyCopies : ℕ := 7

/-- The name of the copy of a day: `20060102` of its date. -/
def copyName (now : Instant) : Text :=
  let date := Date.ofDays (unix now / 86400)
  "pgfy-".toList ++ formatYear date.year ++ Text.padded 2 date.month ++
    Text.padded 2 date.day.toNat ++ ".db".toList

/-- What the calls of one copy answer: whether an update is in progress, and the
    errors of the steps that can fail. -/
structure CopyRun where
  maintenance : Except Err Bool := .ok false
  mkdirAll : Option Err := none
  snapshot : Option Err := none
  rename : Option Err := none
  sync : Option Err := none

/-- Removes all but the last copies, and what interrupted copies left. -/
def CopyDir.prune (d : CopyDir) : CopyDir :=
  let pruned := d.removeAll (d.copies.take (d.copies.length - dailyCopies))
  pruned.removeAll (pruned.glob ".db.tmp".toList)

/-- `DailyCopy`: the name of the copy that was made, if one was. -/
def dailyCopy (run : CopyRun) (d : CopyDir) (now : Instant) : Except Err (Option Text) × CopyDir :=
  match run.maintenance with
  | .error e => (.error e, d)
  | .ok true => (.ok none, d)
  | .ok false =>
    let name := copyName now
    if d.visible name then (.ok none, d)
    else match run.mkdirAll with
    | some e => (.error e, d)
    | none =>
      let staged := name ++ ".tmp".toList
      -- the snapshot first removes what an interrupted one left
      let cleared := d.remove staged
      if staged ∈ cleared.names then (.error .driver, cleared)
      else match run.snapshot with
      | some e => (.error e, cleared)
      | none =>
        match run.rename with
        | some e => (.error e, cleared.put staged)
        | none =>
          let copied := cleared.put name
          match run.sync with
          | some e => (.error e, copied)
          | none => (.ok (some name), copied.prune)

/-! ### The last names of a sorted list -/

/-- In a list in strict order, a name is among the last `n` if fewer than `n` come
    after it. -/
theorem mem_drop_iff {α : Type} [LinearOrder α] [DecidableLT α] {l : List α}
    (hl : l.Pairwise (· < ·)) {x : α} (hx : x ∈ l) (n : ℕ) :
    x ∈ l.drop (l.length - n) ↔ l.countP (x < ·) < n := by
  obtain ⟨before, after, rfl⟩ := List.append_of_mem hx
  obtain ⟨-, hrest, hbefore⟩ := List.pairwise_append.mp hl
  obtain ⟨hafter, -⟩ := List.pairwise_cons.mp hrest
  have hcount : (before ++ x :: after).countP (x < ·) = after.length := by
    have hzero : before.countP (x < ·) = 0 := by
      rw [List.countP_eq_zero]
      intro y hy
      have := hbefore y hy x List.mem_cons_self
      simpa using this.le
    have hall : after.countP (x < ·) = after.length := by
      rw [List.countP_eq_length]
      intro y hy
      simpa using hafter y hy
    rw [List.countP_append, hzero, List.countP_cons_of_neg (by simp), hall, Nat.zero_add]
  have hlen : (before ++ x :: after).length = before.length + (after.length + 1) := by
    rw [List.length_append, List.length_cons]
  have hnot : x ∉ after := fun hmem => lt_irrefl x (hafter x hmem)
  rw [hcount, hlen]
  constructor
  · intro hdrop
    by_contra hmany
    -- the list is cut behind `x`
    rw [List.drop_append, List.drop_eq_nil_of_le (by omega), List.nil_append,
      show before.length + (after.length + 1) - n - before.length =
        (after.length - n) + 1 by omega, List.drop_succ_cons] at hdrop
    exact hnot (List.mem_of_mem_drop hdrop)
  · intro hfew
    rw [List.drop_append_of_le_length (by omega)]
    exact List.mem_append_right _ List.mem_cons_self

theorem mem_take_iff_not_mem_drop {α : Type} {l : List α} (hl : l.Nodup) {x : α} (hx : x ∈ l)
    (k : ℕ) : x ∈ l.take k ↔ x ∉ l.drop k := by
  rw [← List.take_append_drop k l] at hx hl
  constructor
  · exact fun htake hdrop => List.disjoint_of_nodup_append hl htake hdrop
  · intro hdrop
    exact (List.mem_append.mp hx).resolve_right hdrop

/-! ### Names of copies -/

theorem matchesCopy_iff {suffix x : Text} :
    matchesCopy suffix x ↔ ∃ stem, x = "pgfy-".toList ++ stem ++ suffix := by
  unfold matchesCopy
  rw [Bool.and_eq_true, List.isPrefixOf_iff_prefix, List.isSuffixOf_iff_suffix]
  constructor
  · rintro ⟨⟨rest, rfl⟩, stem, hstem⟩
    refine ⟨stem, ?_⟩
    have hrest : stem ++ suffix = rest := hstem
    rw [List.append_assoc, hrest]
  · rintro ⟨stem, rfl⟩
    exact ⟨⟨stem ++ suffix, by simp⟩, ⟨stem, rfl⟩⟩

/-- The name of a copy matches the pattern of copies. -/
theorem matchesCopy_copyName (now : Instant) : matchesCopy ".db".toList (copyName now) := by
  have hname : copyName now = "pgfy-".toList ++
      (formatYear (Date.ofDays (unix now / 86400)).year ++
        Text.padded 2 (Date.ofDays (unix now / 86400)).month ++
        Text.padded 2 (Date.ofDays (unix now / 86400)).day.toNat) ++ ".db".toList := by
    unfold copyName
    simp only [List.append_assoc]
  exact matchesCopy_iff.mpr ⟨_, hname⟩

/-- What ends in `.tmp` is no copy. -/
theorem not_copy_of_tmp {x : Text} (stem : Text) (hx : x = stem ++ ".tmp".toList) :
    ¬ matchesCopy ".db".toList x := by
  intro h
  obtain ⟨stem', hx'⟩ := matchesCopy_iff.mp h
  have hlast := congrArg List.getLast? (hx.symm.trans hx')
  have htmp : ".tmp".toList.getLast? = some 'p' := by decide
  have hdb : ".db".toList.getLast? = some 'b' := by decide
  rw [List.getLast?_append, List.getLast?_append, htmp, hdb] at hlast
  exact absurd hlast (by simp)

theorem not_stray_of_copy {x : Text} (h : matchesCopy ".db".toList x) :
    ¬ matchesCopy ".db.tmp".toList x := by
  intro hstray
  obtain ⟨stem, hx⟩ := matchesCopy_iff.mp hstray
  refine not_copy_of_tmp ("pgfy-".toList ++ stem ++ ".db".toList) ?_ h
  rw [hx, List.append_assoc _ ".db".toList]
  rfl

/-! ### What a copy leaves -/

namespace CopyDir

variable {d : CopyDir}

theorem mem_remove {name : Text} {e : Text × EntryKind} :
    e ∈ (d.remove name).entries ↔ e ∈ d.entries ∧ (e.1 ≠ name ∨ ¬ e.2.removable) := by
  simp [remove]

/-- What is left when some names are removed: other names, and what cannot be. -/
theorem mem_removeAll {names : List Text} {e : Text × EntryKind} :
    e ∈ (d.removeAll names).entries ↔ e ∈ d.entries ∧ (e.1 ∉ names ∨ ¬ e.2.removable) := by
  induction names generalizing d with
  | nil => simp [removeAll]
  | cons name names ih =>
    have hstep : d.removeAll (name :: names) = (d.remove name).removeAll names := rfl
    rw [hstep, ih, mem_remove, List.mem_cons, not_or]
    tauto

theorem mem_put {name : Text} {e : Text × EntryKind} :
    e ∈ (d.put name).entries ↔ e = (name, .file) ∨ (e ∈ d.entries ∧ e.1 ≠ name) :=
  @Table.mem_upsert _ _ _ Prod.fst name d.entries e (fun _ => (name, EntryKind.file))

theorem mem_glob {suffix x : Text} :
    x ∈ d.glob suffix ↔ (∃ kind, (x, kind) ∈ d.entries) ∧ matchesCopy suffix x := by
  simp [glob, names]

theorem mem_copies {x : Text} :
    x ∈ d.copies ↔ (∃ kind, (x, kind) ∈ d.entries) ∧ matchesCopy ".db".toList x := mem_glob

/-- The names that match are in strict order. -/
theorem glob_pairwise (d : CopyDir) (suffix : Text) : (d.glob suffix).Pairwise (· < ·) := by
  have hle : (d.glob suffix).Pairwise (· ≤ ·) := List.pairwise_insertionSort _ _
  have hne : (d.glob suffix).Nodup := by
    unfold glob
    rw [(List.perm_insertionSort _ _).nodup_iff]
    exact d.nodup.filter _
  exact (hle.and hne).imp (fun h => lt_of_le_of_ne h.1 h.2)

/-- A name is among the last copies. -/
def Recent (d : CopyDir) (name : Text) : Prop := d.copies.countP (name < ·) < dailyCopies

theorem mem_last_iff {name : Text} (h : name ∈ d.copies) :
    name ∈ d.copies.drop (d.copies.length - dailyCopies) ↔ d.Recent name :=
  mem_drop_iff (d.glob_pairwise _) h _

/-- A copy is left by the pruning if it is among the last, or cannot be removed. -/
theorem mem_prune {x : Text} (hx : matchesCopy ".db".toList x) :
    (∃ kind, (x, kind) ∈ d.prune.entries) ↔
      ∃ kind, (x, kind) ∈ d.entries ∧ (d.Recent x ∨ ¬ kind.removable) := by
  unfold prune
  simp only [mem_removeAll]
  apply exists_congr
  intro kind
  have hstray : ∀ d' : CopyDir, x ∉ d'.glob ".db.tmp".toList :=
    fun d' hmem => not_stray_of_copy hx (mem_glob.mp hmem).2
  rw [and_iff_left (Or.inl (hstray _))]
  apply and_congr_right
  intro hmem
  have hcopy : x ∈ d.copies := mem_glob.mpr ⟨⟨kind, hmem⟩, hx⟩
  have hnodup : d.copies.Nodup := (d.glob_pairwise _).imp (fun h => h.ne)
  rw [mem_take_iff_not_mem_drop hnodup hcopy, not_not, mem_last_iff hcopy]

end CopyDir

/-- A run that makes a copy and the directory as it is left. -/
theorem dailyCopy_some {run : CopyRun} {d d' : CopyDir} {now : Instant} {name : Text}
    (h : dailyCopy run d now = (.ok (some name), d')) :
    name = copyName now ∧ d' = ((d.remove (name ++ ".tmp".toList)).put name).prune := by
  unfold dailyCopy at h
  split at h
  · cases h
  · cases h
  · simp only at h
    split at h
    · cases h
    · split at h
      · cases h
      · split at h
        · cases h
        · split at h
          · cases h
          · split at h
            · cases h
            · split at h
              · cases h
              · cases h
                exact ⟨rfl, rfl⟩

namespace CopyDir

variable {d : CopyDir} {name stem : Text}

/-- The directory with a new copy, after what an interrupted run left is cleared. -/
theorem mem_copied {e : Text × EntryKind} (hcopy : matchesCopy ".db".toList e.1) :
    e ∈ ((d.remove (stem ++ ".tmp".toList)).put name).entries ↔ e ∈ (d.put name).entries := by
  rw [mem_put, mem_put, mem_remove]
  have hne : e.1 ≠ stem ++ ".tmp".toList := fun heq => not_copy_of_tmp stem heq hcopy
  tauto

theorem copies_copied :
    ((d.remove (stem ++ ".tmp".toList)).put name).copies = (d.put name).copies := by
  refine (glob_pairwise _ _).eq_of_mem_iff (glob_pairwise _ _) ?_
  intro x
  refine mem_copies.trans (Iff.trans ?_ mem_copies.symm)
  apply and_congr_left
  intro hcopy
  exact exists_congr (fun kind => mem_copied hcopy)

/-- The last copies of a directory. -/
def last (d : CopyDir) : List Text := d.copies.drop (d.copies.length - dailyCopies)

theorem nodup_copies (d : CopyDir) : d.copies.Nodup := (d.glob_pairwise _).imp (fun h => h.ne)

theorem nodup_last (d : CopyDir) : d.last.Nodup :=
  d.nodup_copies.sublist (List.drop_sublist _ _)

theorem length_last_le (d : CopyDir) : d.last.length ≤ dailyCopies := by
  unfold last
  rw [List.length_drop]
  omega

/-- A copy that is not among the last comes before all of them, and they are seven. -/
theorem before_last {x y : Text} (hx : x ∈ d.copies) (hold : ¬ d.Recent x) :
    d.last.length = dailyCopies ∧ (y ∈ d.last → x < y) := by
  have htake : x ∈ d.copies.take (d.copies.length - dailyCopies) := by
    rw [mem_take_iff_not_mem_drop d.nodup_copies hx, mem_last_iff hx]
    exact hold
  constructor
  · unfold last
    rw [List.length_drop]
    have := List.length_pos_of_mem htake
    rw [List.length_take] at this
    omega
  · intro hy
    have hsorted := d.glob_pairwise ".db".toList
    change d.copies.Pairwise (· < ·) at hsorted
    rw [← List.take_append_drop (d.copies.length - dailyCopies) d.copies] at hsorted
    exact (List.pairwise_append.mp hsorted).2.2 x htake y hy

theorem mem_names {x : Text} : x ∈ d.names ↔ ∃ kind, (x, kind) ∈ d.entries := by
  simp [names]

/-- What the pruning keeps to, and when. -/
theorem prune_iff (hcopy : matchesCopy ".db".toList name) (hfile : (name, .file) ∈ d.entries) :
    (name ∈ d.prune.names ∧ d.prune.copies.length ≤ dailyCopies ∧
        ∀ removed ∈ d.copies, removed ∉ d.prune.names → ∀ kept ∈ d.prune.copies, removed < kept) ↔
      d.Recent name ∧ ∀ x, matchesCopy ".db".toList x → (x, EntryKind.unremovable) ∈ d.entries →
        d.Recent x := by
  constructor
  · rintro ⟨hname, hlength, -⟩
    constructor
    · -- the new copy is a file, so it is left only if it is among the last
      obtain ⟨kind, hkind, hleft⟩ := (mem_prune hcopy).mp (mem_names.mp hname)
      have hsame := List.inj_on_of_nodup_map d.nodup hkind hfile rfl
      cases hsame
      exact hleft.resolve_right (by decide)
    · -- one that cannot be removed would be an eighth
      intro x hx hmem
      by_contra hold
      have hxcopy : x ∈ d.copies := mem_copies.mpr ⟨⟨_, hmem⟩, hx⟩
      obtain ⟨hseven, -⟩ := before_last (y := x) hxcopy hold
      have hsub : x :: d.last ⊆ d.prune.copies := by
        intro y hy
        cases hy with
        | head =>
          exact mem_copies.mpr ⟨(mem_prune hx).mpr ⟨_, hmem, .inr (by decide)⟩, hx⟩
        | tail _ hy =>
          have hycopy := List.mem_of_mem_drop hy
          obtain ⟨⟨kind, hkind⟩, hy'⟩ := mem_copies.mp hycopy
          exact mem_copies.mpr
            ⟨(mem_prune hy').mpr ⟨kind, hkind, .inl ((mem_last_iff hycopy).mp hy)⟩, hy'⟩
      have hnodup : (x :: d.last).Nodup :=
        List.nodup_cons.mpr ⟨fun hlast => hold ((mem_last_iff hxcopy).mp hlast), d.nodup_last⟩
      have hle := (List.subperm_of_subset hnodup hsub).length_le
      rw [List.length_cons] at hle
      omega
  · rintro ⟨hname, hstuck⟩
    have hlast : d.prune.copies ⊆ d.last := by
      intro x hx
      obtain ⟨hleft, hx'⟩ := mem_copies.mp hx
      obtain ⟨kind, hkind, hrecent⟩ := (mem_prune hx').mp hleft
      refine (mem_last_iff (mem_copies.mpr ⟨⟨kind, hkind⟩, hx'⟩)).mpr ?_
      rcases hrecent with hrecent | hkept
      · exact hrecent
      · cases kind with
        | unremovable => exact hstuck x hx' hkind
        | file | brokenLink | emptyDirectory => exact absurd rfl hkept
    refine ⟨?_, ?_, ?_⟩
    · exact mem_names.mpr ((mem_prune hcopy).mpr ⟨_, hfile, .inl hname⟩)
    · exact (List.subperm_of_subset (nodup_copies _) hlast).length_le.trans d.length_last_le
    · intro removed hmem hgone kept hkept
      obtain ⟨⟨kind, hkind⟩, hremoved⟩ := mem_copies.mp hmem
      have hold : ¬ d.Recent removed := fun hrecent =>
        hgone (mem_names.mpr ((mem_prune hremoved).mpr ⟨kind, hkind, .inl hrecent⟩))
      exact (before_last hmem hold).2 (hlast hkept)

end CopyDir

/-- A copy that is made is still there afterwards, at most seven copies are, and
    those that were removed come before those that were kept, exactly if the copy is
    among the last seven by name, and so is every copy that cannot be removed. -/
theorem copy_survives_iff {run : CopyRun} {d d' : CopyDir} {now : Instant} {name : Text}
    (h : dailyCopy run d now = (.ok (some name), d')) :
    (name ∈ d'.names ∧ d'.copies.length ≤ dailyCopies ∧
        ∀ removed ∈ (d.put name).copies, removed ∉ d'.names →
          ∀ kept ∈ d'.copies, removed < kept) ↔
      (d.put name).Recent name ∧
        ∀ x, matchesCopy ".db".toList x → (x, EntryKind.unremovable) ∈ (d.put name).entries →
          (d.put name).Recent x := by
  obtain ⟨hname, rfl⟩ := dailyCopy_some h
  have hcopy : matchesCopy ".db".toList name := hname ▸ matchesCopy_copyName now
  have hfile : (name, EntryKind.file) ∈ ((d.remove (name ++ ".tmp".toList)).put name).entries :=
    CopyDir.mem_put.mpr (.inl rfl)
  have hiff := CopyDir.prune_iff hcopy hfile
  unfold CopyDir.Recent at hiff ⊢
  rw [CopyDir.copies_copied] at hiff
  rw [hiff]
  apply and_congr_right
  intro _
  apply forall_congr'
  intro x
  apply imp_congr_right
  intro hx
  rw [CopyDir.mem_copied hx]

/-- Seven copies that were made while the clock was ahead. -/
def aheadCopies : CopyDir where
  entries := ["pgfy-20990101.db", "pgfy-20990102.db", "pgfy-20990103.db", "pgfy-20990104.db",
    "pgfy-20990105.db", "pgfy-20990106.db", "pgfy-20990107.db"].map (fun n => (n.toList, .file))
  nodup := by decide

/-- The evening of 2 October 2026. -/
def copyEvening : Instant := ofUnix 1790983800

/-- The copy that is reported as made has been removed again. -/
theorem copy_removed_at_once :
    (dailyCopy {} aheadCopies copyEvening).1 = .ok (some "pgfy-20261002.db".toList) ∧
      "pgfy-20261002.db".toList ∉ (dailyCopy {} aheadCopies copyEvening).2.names := by
  decide +kernel

/-- Seven copies of earlier days, as they are left in daily use. -/
def earlierCopies : CopyDir where
  entries := ["pgfy-20260925.db", "pgfy-20260926.db", "pgfy-20260927.db", "pgfy-20260928.db",
    "pgfy-20260929.db", "pgfy-20260930.db", "pgfy-20261001.db"].map (fun n => (n.toList, .file))
  nodup := by decide

theorem copy_survives_iff_earlier :
    "pgfy-20261002.db".toList ∈ (dailyCopy {} earlierCopies copyEvening).2.names ∧
      (dailyCopy {} earlierCopies copyEvening).2.copies.length ≤ dailyCopies := by
  have hcopy : dailyCopy {} earlierCopies copyEvening =
      (.ok (some "pgfy-20261002.db".toList), (dailyCopy {} earlierCopies copyEvening).2) :=
    Prod.ext (by decide +kernel) rfl
  have hrecent : (earlierCopies.put "pgfy-20261002.db".toList).Recent
      "pgfy-20261002.db".toList := by
    unfold CopyDir.Recent
    decide +kernel
  have hfiles : ∀ e ∈ (earlierCopies.put "pgfy-20261002.db".toList).entries, e.2 = .file := by
    decide +kernel
  have hkept := (copy_survives_iff hcopy).mpr
    ⟨hrecent, fun x _ hx => nomatch hfiles _ hx⟩
  exact ⟨hkept.1, hkept.2.1⟩

end Pgfy
