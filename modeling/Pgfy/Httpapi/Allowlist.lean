import Pgfy.Hba

/-! # Allowlists

    What a project's allowlist admits, before and after it is normalised, and
    the marker of a project that is open to the internet. The marker looks for
    one range that is everything; ranges that are everything only together do
    not set it.
-/

namespace Pgfy

open Netip

def openToInternet (addresses : List String) : Bool :=
  addresses.any (fun a => a = "0.0.0.0/0" ∨ a = "::/0")

/-! ### What a list admits -/

/-- What an entry stands for; a blank one stands for nothing. -/
def entryPrefix (raw : String) : Option Prefix :=
  let value := Text.trimSpace raw.toList
  if value = [] then none else parseEntry value

/-- The addresses a list lets in. -/
def Admits (addresses : List String) (a : Addr) : Prop :=
  ∃ raw ∈ addresses, ∃ p, entryPrefix raw = some p ∧ p.Contains a

/-- Every address of a family is let in. -/
def AdmitsAll (addresses : List String) (f : Family) : Prop :=
  ∀ a : Addr, a.family = f → Admits addresses a

/-- The ranges of a list. -/
def rangesOf (addresses : List String) : List Range :=
  addresses.filterMap (fun raw => (entryPrefix raw).map Prefix.masked)

theorem mem_rangesOf {addresses : List String} {r : Range} :
    r ∈ rangesOf addresses ↔ ∃ raw ∈ addresses, ∃ p, entryPrefix raw = some p ∧ p.masked = r := by
  simp [rangesOf, List.mem_filterMap]

theorem admits_iff {addresses : List String} {a : Addr} :
    Admits addresses a ↔ ∃ r ∈ rangesOf addresses, a ∈ r := by
  constructor
  · rintro ⟨raw, hraw, p, hp, ha⟩
    exact ⟨p.masked, mem_rangesOf.mpr ⟨raw, hraw, p, hp, rfl⟩, Prefix.mem_masked.mpr ha⟩
  · rintro ⟨r, hr, ha⟩
    obtain ⟨raw, hraw, p, hp, rfl⟩ := mem_rangesOf.mp hr
    exact ⟨raw, hraw, p, hp, Prefix.mem_masked.mp ha⟩

theorem admitsAll_iff {addresses : List String} {f : Family} :
    AdmitsAll addresses f ↔ Covers (rangesOf addresses).toFinset f := by
  unfold AdmitsAll Covers
  simp only [admits_iff, List.mem_toFinset]

/-! ### Canonical entries -/

/-- A range as it is written. -/
def canonical (r : Range) : String := String.ofList r.text

section
variable {r : Range} {raw : String} {out out' addresses : List String}

theorem text_ne_nil (r : Range) : r.text ≠ [] := by simp [Range.text]

/-- A canonical entry stands for its range. -/
theorem entryPrefix_canonical (h : r.addr.is4In6 = false) :
    entryPrefix (canonical r) = some ⟨r.addr, r.bits, r.bits_le⟩ := by
  unfold entryPrefix canonical
  rw [String.toList_ofList, trimSpace_text h]
  simp [text_ne_nil, parseEntry, parsePrefix_text h]

/-- The list with an entry for the range. -/
def withRange (out : List String) (r : Range) : List String :=
  if canonical r ∈ out then out else out ++ [canonical r]

theorem mem_withRange {s : String} : s ∈ withRange out r ↔ s ∈ out ∨ s = canonical r := by
  unfold withRange
  split
  next hmem =>
    constructor
    · exact Or.inl
    · rintro (hs | rfl)
      · exact hs
      · exact hmem
  next => simp

theorem nodup_withRange (h : out.Nodup) : (withRange out r).Nodup := by
  unfold withRange
  split
  next => exact h
  next hnew =>
    rw [← List.concat_eq_append]
    exact h.concat hnew

theorem length_withRange_le : (withRange out r).length ≤ out.length + 1 := by
  unfold withRange
  split
  next => omega
  next => simp

/-- An entry of an acceptable range has the range added. -/
theorem normalizeStep_of_entry {p : Prefix} (hentry : entryPrefix raw = some p)
    (h4 : p.masked.addr.is4In6 = false) :
    normalizeStep out raw = .ok (withRange out p.masked) := by
  unfold entryPrefix at hentry
  simp only at hentry
  split at hentry
  next => cases hentry
  next hblank =>
    unfold normalizeStep withRange canonical
    simp only [hblank, hentry, h4, if_false, Bool.false_eq_true]
    split <;> rfl

/-- An accepted entry is blank or one of those. -/
theorem entry_of_normalizeStep (h : normalizeStep out raw = .ok out') :
    entryPrefix raw = none ∧ out' = out ∨
      ∃ p, entryPrefix raw = some p ∧ p.masked.addr.is4In6 = false ∧
        out' = withRange out p.masked := by
  cases hentry : entryPrefix raw with
  | none =>
    left
    unfold entryPrefix at hentry
    unfold normalizeStep at h
    by_cases hblank : Text.trimSpace raw.toList = []
    · simp only [hblank, if_true] at h
      exact ⟨rfl, (Except.ok.inj h).symm⟩
    · simp only [hblank, if_false] at h hentry
      rw [hentry] at h
      cases h
  | some p =>
    right
    cases h4 : p.masked.addr.is4In6 with
    | false =>
      rw [normalizeStep_of_entry hentry h4] at h
      exact ⟨p, rfl, h4, (Except.ok.inj h).symm⟩
    | true =>
      unfold entryPrefix at hentry
      unfold normalizeStep at h
      by_cases hblank : Text.trimSpace raw.toList = []
      · simp [hblank] at hentry
      · simp only [hblank, if_false] at h hentry
        simp only [hentry, h4, if_true] at h
        cases h

/-! ### Normalising -/

/-- A list of canonical ranges, each once. -/
structure Canonical (out : List String) : Prop where
  entries : ∀ s ∈ out, ∃ r : Range, r.addr.is4In6 = false ∧ s = canonical r
  nodup : out.Nodup

theorem Canonical.withRange (h : Canonical out) (h4 : r.addr.is4In6 = false) :
    Canonical (withRange out r) where
  entries s hs := by
    rcases mem_withRange.mp hs with hs | rfl
    · exact h.entries s hs
    · exact ⟨r, h4, rfl⟩
  nodup := nodup_withRange h.nodup

theorem mem_rangesOf_withRange (h4 : r.addr.is4In6 = false) {r' : Range} :
    r' ∈ rangesOf (withRange out r) ↔ r' ∈ rangesOf out ∨ r' = r := by
  have hmasked : Prefix.masked ⟨r.addr, r.bits, r.bits_le⟩ = r := Range.of_addr r
  simp only [mem_rangesOf, mem_withRange]
  constructor
  · rintro ⟨raw, hraw | rfl, p, hp, hr'⟩
    · exact Or.inl ⟨raw, hraw, p, hp, hr'⟩
    · rw [entryPrefix_canonical h4] at hp
      obtain rfl := Option.some.inj hp
      exact Or.inr (hr'.symm.trans hmasked)
  · rintro (⟨raw, hraw, p, hp, hr'⟩ | rfl)
    · exact ⟨raw, Or.inl hraw, p, hp, hr'⟩
    · exact ⟨canonical r', Or.inr rfl, _, entryPrefix_canonical h4, hmasked⟩

theorem mem_rangesOf_cons {r' : Range} :
    r' ∈ rangesOf (raw :: addresses) ↔
      (∃ p, entryPrefix raw = some p ∧ p.masked = r') ∨ r' ∈ rangesOf addresses := by
  simp [mem_rangesOf]

/-- What a run over a list gives: canonical ranges, those of the list and those before. -/
theorem normalize_run (h : addresses.foldlM normalizeStep out = .ok out') (hout : Canonical out) :
    Canonical out' ∧ out'.length ≤ out.length + addresses.length ∧
      ∀ r, r ∈ rangesOf out' ↔ r ∈ rangesOf out ∨ r ∈ rangesOf addresses := by
  induction addresses generalizing out with
  | nil =>
    obtain rfl := Except.ok.inj h
    exact ⟨hout, le_refl _, fun r => by simp [rangesOf]⟩
  | cons raw addresses ih =>
    rw [List.foldlM_cons] at h
    cases hstep : normalizeStep out raw with
    | error e =>
      rw [hstep] at h
      cases h
    | ok mid =>
      rw [hstep] at h
      rcases entry_of_normalizeStep hstep with ⟨hentry, rfl⟩ | ⟨p, hentry, h4, rfl⟩
      · obtain ⟨hcanonical, hlength, hranges⟩ := ih h hout
        refine ⟨hcanonical, by rw [List.length_cons]; omega, fun r => ?_⟩
        rw [hranges, mem_rangesOf_cons]
        simp [hentry]
      · obtain ⟨hcanonical, hlength, hranges⟩ := ih h (hout.withRange h4)
        have hmid := @length_withRange_le p.masked out
        refine ⟨hcanonical, by rw [List.length_cons]; omega, fun r => ?_⟩
        rw [hranges, mem_rangesOf_withRange h4, mem_rangesOf_cons]
        simp only [hentry, Option.some.injEq, exists_eq_left', eq_comm, or_assoc]

/-- A run over canonical ranges that are not there yet takes them as they are. -/
theorem foldlM_canonical (h : Canonical (out ++ addresses)) :
    addresses.foldlM normalizeStep out = .ok (out ++ addresses) := by
  induction addresses generalizing out with
  | nil => simp [pure, Except.pure]
  | cons raw addresses ih =>
    obtain ⟨r, h4, rfl⟩ := h.entries raw (by simp)
    have hmasked : Prefix.masked ⟨r.addr, r.bits, r.bits_le⟩ = r := Range.of_addr r
    have hnew : canonical r ∉ out := fun hmem =>
      (List.nodup_append.mp h.nodup).2.2 _ hmem _ List.mem_cons_self rfl
    have hstep := @normalizeStep_of_entry (canonical r) out _ (entryPrefix_canonical h4)
      (by rw [hmasked]; exact h4)
    have hwith : withRange out r = out ++ [canonical r] := if_neg hnew
    rw [hmasked, hwith] at hstep
    rw [List.foldlM_cons, hstep]
    have hrest := @ih (out ++ [canonical r]) (by simpa using h)
    rw [List.append_assoc] at hrest
    exact hrest

theorem normalize_spec (h : normalize addresses = .ok out) :
    Canonical out ∧ out.length ≤ addresses.length ∧ addresses.length ≤ maxAddresses ∧
      ∀ r, r ∈ rangesOf out ↔ r ∈ rangesOf addresses := by
  unfold normalize at h
  split at h
  next => cases h
  next hmany =>
    have hempty : Canonical [] := ⟨fun s hs => absurd hs List.not_mem_nil, List.nodup_nil⟩
    obtain ⟨hcanonical, hlength, hranges⟩ := normalize_run h hempty
    refine ⟨hcanonical, by simpa using hlength, by omega, fun r => ?_⟩
    rw [hranges]
    simp [rangesOf]

/-- A canonical list of a fitting length is its own normal form. -/
theorem normalize_canonical (h : Canonical out) (hlength : out.length ≤ maxAddresses) :
    normalize out = .ok out := by
  unfold normalize
  rw [if_neg (by omega)]
  exact foldlM_canonical h

/-! ### The marker -/

theorem Canonical.mem_rangesOf (h : Canonical out) :
    r ∈ rangesOf out ↔ canonical r ∈ out ∧ r.addr.is4In6 = false := by
  have hmasked : ∀ r : Range, Prefix.masked ⟨r.addr, r.bits, r.bits_le⟩ = r := Range.of_addr
  rw [Pgfy.mem_rangesOf]
  constructor
  · rintro ⟨raw, hraw, p, hp, rfl⟩
    obtain ⟨r, h4, rfl⟩ := h.entries raw hraw
    rw [entryPrefix_canonical h4] at hp
    obtain rfl := Option.some.inj hp
    rw [hmasked]
    exact ⟨hraw, h4⟩
  · rintro ⟨hmem, h4⟩
    exact ⟨canonical r, hmem, _, entryPrefix_canonical h4, hmasked r⟩

/-- The range of all addresses of a family. -/
def everything (f : Family) : Range := ⟨f, 0, 0, Nat.zero_le _, dvd_zero _, Nat.two_pow_pos _⟩

theorem eq_everything (h : r.bits = 0) : r = everything r.family := by
  obtain ⟨family, value, bits, hle, hmasked, hlt⟩ := r
  obtain rfl : bits = 0 := h
  obtain rfl : value = 0 := Nat.eq_zero_of_dvd_of_lt hmasked hlt
  rfl

theorem canonical_everything :
    canonical (everything .v4) = "0.0.0.0/0" ∧ canonical (everything .v6) = "::/0" := by
  decide +kernel

theorem not_is4In6_everything : ∀ f, (everything f).addr.is4In6 = false := by
  rintro (_ | _) <;> rfl

/-- The marker is set exactly if one of the ranges is everything. -/
theorem Canonical.openToInternet_iff (h : Canonical out) :
    openToInternet out = true ↔ ∃ r ∈ rangesOf out, r.bits = 0 := by
  have hmarked : openToInternet out = true ↔ ∃ f, canonical (everything f) ∈ out := by
    unfold openToInternet
    rw [List.any_eq_true]
    constructor
    · rintro ⟨s, hs, hmark⟩
      rcases of_decide_eq_true hmark with rfl | rfl
      · exact ⟨.v4, by rw [canonical_everything.1]; exact hs⟩
      · exact ⟨.v6, by rw [canonical_everything.2]; exact hs⟩
    · rintro ⟨f, hf⟩
      refine ⟨_, hf, decide_eq_true ?_⟩
      cases f with
      | v4 => exact Or.inl canonical_everything.1
      | v6 => exact Or.inr canonical_everything.2
  rw [hmarked]
  constructor
  · rintro ⟨f, hf⟩
    exact ⟨everything f, h.mem_rangesOf.mpr ⟨hf, not_is4In6_everything f⟩, rfl⟩
  · rintro ⟨r, hr, hbits⟩
    refine ⟨r.family, ?_⟩
    rw [← eq_everything hbits]
    exact (h.mem_rangesOf.mp hr).1

end

/-- Normalising twice changes nothing, and the normal form admits what the list admits.
    The marker tells that a family is admitted as a whole, if one of the ranges is that
    family or the outermost ranges do not add up to it. -/
theorem normalize_faithful {addresses out : List String} (h : normalize addresses = .ok out) :
    normalize out = .ok out ∧ (∀ a, Admits out a ↔ Admits addresses a) ∧
      ((openToInternet out = true ↔ AdmitsAll addresses .v4 ∨ AdmitsAll addresses .v6) ↔
        (∃ r ∈ rangesOf addresses, r.bits = 0) ∨
          ∀ f, outermostSize (rangesOf addresses).toFinset f ≠ 2 ^ f.width) := by
  obtain ⟨hcanonical, hshorter, hfits, hranges⟩ := normalize_spec h
  have hmarker : openToInternet out = true ↔ ∃ r ∈ rangesOf addresses, r.bits = 0 := by
    rw [hcanonical.openToInternet_iff]
    simp only [hranges]
  have hwhole : AdmitsAll addresses .v4 ∨ AdmitsAll addresses .v6 ↔
      ∃ f : Family, outermostSize (rangesOf addresses).toFinset f = 2 ^ f.width := by
    rw [admitsAll_iff, admitsAll_iff, covers_iff, covers_iff]
    constructor
    · rintro (h4 | h6)
      · exact ⟨.v4, h4⟩
      · exact ⟨.v6, h6⟩
    · rintro ⟨_ | _, hf⟩
      · exact Or.inl hf
      · exact Or.inr hf
  -- a range that is everything covers its family
  have hone : (∃ r ∈ rangesOf addresses, r.bits = 0) →
      ∃ f : Family, outermostSize (rangesOf addresses).toFinset f = 2 ^ f.width := by
    rintro ⟨r, hr, hbits⟩
    exact ⟨r.family, covers_iff.mp (covers_of_bits_zero (List.mem_toFinset.mpr hr) hbits)⟩
  refine ⟨normalize_canonical hcanonical (hshorter.trans hfits), fun a => ?_, ?_⟩
  · rw [admits_iff, admits_iff]
    simp only [hranges]
  · rw [hmarker, hwhole, ← not_exists]
    constructor
    · intro hiff
      by_cases hzero : ∃ r ∈ rangesOf addresses, r.bits = 0
      · exact Or.inl hzero
      · exact Or.inr (fun hf => hzero (hiff.mpr hf))
    · rintro (hzero | hnone)
      · exact iff_of_true hzero (hone hzero)
      · exact iff_of_false (fun hzero => hnone (hone hzero)) hnone

theorem normalize_faithful_open :
    normalize ["203.0.113.9/24", " 0.0.0.0/0"] = .ok ["203.0.113.0/24", "0.0.0.0/0"] ∧
      (openToInternet ["203.0.113.0/24", "0.0.0.0/0"] = true ↔
        AdmitsAll ["203.0.113.9/24", " 0.0.0.0/0"] .v4 ∨
          AdmitsAll ["203.0.113.9/24", " 0.0.0.0/0"] .v6) := by
  have haccepted : normalize ["203.0.113.9/24", " 0.0.0.0/0"] =
      .ok ["203.0.113.0/24", "0.0.0.0/0"] := by decide +kernel
  exact ⟨haccepted, (normalize_faithful haccepted).2.2.mpr (Or.inl (by decide +kernel))⟩

/-- The two halves of the IPv4 addresses are everything, and not marked so. -/
theorem halves_not_marked :
    normalize ["0.0.0.0/1", "128.0.0.0/1"] = .ok ["0.0.0.0/1", "128.0.0.0/1"] ∧
      AdmitsAll ["0.0.0.0/1", "128.0.0.0/1"] .v4 ∧
      openToInternet ["0.0.0.0/1", "128.0.0.0/1"] = false := by
  refine ⟨by decide +kernel, ?_, by decide⟩
  rw [admitsAll_iff, covers_iff]
  decide +kernel

end Pgfy
