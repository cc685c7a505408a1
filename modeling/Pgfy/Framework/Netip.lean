import Mathlib

/-! # Addresses and ranges

    An IP address is a number of its family's width, a range the addresses that
    agree with it in the leading bits. Two ranges of a family lie one in the
    other or apart, so what several ranges take together can be counted: it is
    the sum of the outermost ones.
-/

namespace Netip

/-! ### Addresses -/

inductive Family where
  | v4
  | v6
deriving DecidableEq

def Family.width : Family → ℕ
  | v4 => 32
  | v6 => 128

structure Addr where
  family : Family
  value : ℕ
  lt : value < 2 ^ family.width
deriving DecidableEq

/-- The address of a number, if there is one. -/
def Addr.ofValue (f : Family) (value : ℕ) : Option Addr :=
  if h : value < 2 ^ f.width then some ⟨f, value, h⟩ else none

/-- An IPv4 address among the IPv6 addresses. -/
def Addr.is4In6 (a : Addr) : Bool := a.family = .v6 ∧ a.value / 2 ^ 32 = 0xffff

/-! ### Ranges -/

/-- A range with the bits behind its length cleared. -/
structure Range where
  family : Family
  value : ℕ
  bits : ℕ
  bits_le : bits ≤ family.width
  masked : 2 ^ (family.width - bits) ∣ value
  lt : value < 2 ^ family.width
deriving DecidableEq

namespace Range

variable {r r' : Range}

/-- The number of addresses in it. -/
def size (r : Range) : ℕ := 2 ^ (r.family.width - r.bits)

theorem size_pos (r : Range) : 0 < r.size := Nat.two_pow_pos _

/-- The range of an address with this many leading bits. -/
def of (a : Addr) (bits : ℕ) (h : bits ≤ a.family.width) : Range where
  family := a.family
  value := a.value / 2 ^ (a.family.width - bits) * 2 ^ (a.family.width - bits)
  bits := bits
  bits_le := h
  masked := Nat.dvd_mul_left _ _
  lt := lt_of_le_of_lt (Nat.div_mul_le_self _ _) a.lt

/-- Its first address. -/
def addr (r : Range) : Addr := ⟨r.family, r.value, r.lt⟩

/-- Cleared bits stay cleared. -/
theorem of_addr (r : Range) : of r.addr r.bits r.bits_le = r := by
  obtain ⟨family, value, bits, hbits, hmasked, hlt⟩ := r
  simp only [of, addr, Range.mk.injEq, true_and, and_true]
  exact Nat.div_mul_cancel hmasked

/-- The addresses of a range, by their leading bits. -/
instance : Membership Addr Range where
  mem r a := a.family = r.family ∧ a.value / r.size = r.value / r.size

theorem mem_def {a : Addr} : a ∈ r ↔ a.family = r.family ∧ a.value / r.size = r.value / r.size :=
  Iff.rfl

/-- The numbers of the addresses of a range. -/
def block (r : Range) : Finset ℕ := Finset.Ico r.value (r.value + r.size)

theorem mem_block {n : ℕ} : n ∈ r.block ↔ n / r.size = r.value / r.size := by
  have hdvd : r.value / r.size * r.size = r.value := Nat.div_mul_cancel r.masked
  have hpos := r.size_pos
  rw [block, Finset.mem_Ico, Nat.div_eq_iff hpos, hdvd]
  omega

theorem card_block : r.block.card = r.size := by
  rw [block, Nat.card_Ico]
  omega

theorem block_subset : r.block ⊆ Finset.range (2 ^ r.family.width) := by
  intro n hn
  rw [Finset.mem_range]
  -- the last address of the range has the same leading bits as the first
  have hsplit : 2 ^ r.family.width = 2 ^ r.bits * r.size := by
    rw [size, ← pow_add, Nat.add_sub_cancel' r.bits_le]
  have hfirst : r.value / r.size < 2 ^ r.bits := by
    rw [Nat.div_lt_iff_lt_mul r.size_pos, ← hsplit]
    exact r.lt
  rw [hsplit, ← Nat.div_lt_iff_lt_mul r.size_pos, mem_block.mp hn]
  exact hfirst

theorem first_mem_block : r.value ∈ r.block := mem_block.mpr rfl

/-- A range lies in another: it has more bits, and agrees in those of the other. -/
def Inside (r r' : Range) : Prop :=
  r.family = r'.family ∧ r'.bits ≤ r.bits ∧ r.value / r'.size = r'.value / r'.size

instance : DecidableRel Inside := fun _ _ => inferInstanceAs (Decidable (_ ∧ _ ∧ _))

theorem size_dvd (h : r.size ≤ r'.size) : r.size ∣ r'.size := by
  unfold size at h ⊢
  exact pow_dvd_pow 2 ((Nat.pow_le_pow_iff_right (by decide)).mp h)

theorem size_le_size_iff (hfamily : r.family = r'.family) :
    r.size ≤ r'.size ↔ r'.bits ≤ r.bits := by
  have hbits := r.bits_le
  have hbits' := r'.bits_le
  unfold size
  rw [Nat.pow_le_pow_iff_right (by decide)]
  rw [hfamily] at hbits ⊢
  omega

/-- A range that shares an address with one no smaller has all its addresses there. -/
theorem block_subset_of_shared (hsize : r.size ≤ r'.size) {n : ℕ} (hn : n ∈ r.block)
    (hn' : n ∈ r'.block) : r.block ⊆ r'.block := by
  intro m hm
  obtain ⟨k, hk⟩ := size_dvd hsize
  have hcoarse : ∀ x, x / r'.size = x / r.size / k := by
    intro x
    rw [hk, Nat.div_div_eq_div_mul]
  rw [mem_block] at hn hn' hm ⊢
  rw [← hn', hcoarse, hcoarse, hm, hn]

theorem inside_iff (hfamily : r.family = r'.family) : r.Inside r' ↔ r.block ⊆ r'.block := by
  constructor
  · rintro ⟨-, hbits, hvalue⟩
    exact block_subset_of_shared ((size_le_size_iff hfamily).mpr hbits) first_mem_block
      (mem_block.mpr hvalue)
  · intro hsub
    have hsize := Finset.card_le_card hsub
    rw [card_block, card_block] at hsize
    exact ⟨hfamily, (size_le_size_iff hfamily).mp hsize, mem_block.mp (hsub first_mem_block)⟩

theorem inside_or_disjoint (hfamily : r.family = r'.family) :
    r.Inside r' ∨ r'.Inside r ∨ Disjoint r.block r'.block := by
  by_cases hdisjoint : Disjoint r.block r'.block
  · exact Or.inr (Or.inr hdisjoint)
  · obtain ⟨n, hn, hn'⟩ := Finset.not_disjoint_iff.mp hdisjoint
    rcases Nat.le_total r.size r'.size with hsize | hsize
    · exact Or.inl ((inside_iff hfamily).mpr (block_subset_of_shared hsize hn hn'))
    · exact Or.inr (Or.inl ((inside_iff hfamily.symm).mpr (block_subset_of_shared hsize hn' hn)))

/-- Ranges that lie in each other are the same. -/
theorem Inside.antisymm (h : r.Inside r') (h' : r'.Inside r) : r = r' := by
  obtain ⟨hfamily, hbits, hvalue⟩ := h
  obtain ⟨-, hbits', -⟩ := h'
  obtain ⟨family, value, bits, hle, hmasked, hlt⟩ := r
  obtain ⟨family', value', bits', hle', hmasked', hlt'⟩ := r'
  simp only [size] at hfamily hbits hbits' hvalue
  obtain rfl := hfamily
  obtain rfl : bits = bits' := Nat.le_antisymm hbits' hbits
  obtain rfl : value = value' := by
    rw [← Nat.div_mul_cancel hmasked, hvalue, Nat.div_mul_cancel hmasked']
  rfl

theorem Inside.trans {r'' : Range} (h : r.Inside r') (h' : r'.Inside r'') : r.Inside r'' := by
  have hfamily := h.1.trans h'.1
  rw [inside_iff hfamily]
  exact ((inside_iff h.1).mp h).trans ((inside_iff h'.1).mp h')

end Range

/-- An address with a number of leading bits, as a range is written; the bits behind
    them do not count. -/
structure Prefix where
  addr : Addr
  bits : ℕ
  bits_le : bits ≤ addr.family.width

namespace Prefix

/-- An address that agrees with it in the leading bits. -/
def Contains (p : Prefix) (a : Addr) : Prop :=
  a.family = p.addr.family ∧ a.value / 2 ^ (p.addr.family.width - p.bits) =
    p.addr.value / 2 ^ (p.addr.family.width - p.bits)

def masked (p : Prefix) : Range := Range.of p.addr p.bits p.bits_le

/-- Clearing the bits that do not count changes nothing. -/
theorem mem_masked {p : Prefix} {a : Addr} : a ∈ p.masked ↔ p.Contains a := by
  have hcleared : p.masked.value / p.masked.size =
      p.addr.value / 2 ^ (p.addr.family.width - p.bits) :=
    Nat.mul_div_cancel _ (Nat.two_pow_pos _)
  rw [Range.mem_def, hcleared]
  exact Iff.rfl

end Prefix

/-! ### Several ranges -/

/-- Every address of the family is in one of the ranges. -/
def Covers (S : Finset Range) (f : Family) : Prop :=
  ∀ a : Addr, a.family = f → ∃ r ∈ S, a ∈ r

/-- The ranges of a family that lie in no other one. -/
def outermost (S : Finset Range) (f : Family) : Finset Range :=
  S.filter (fun r => r.family = f ∧ ∀ r' ∈ S, r.Inside r' → r' = r)

/-- How many addresses those have. -/
def outermostSize (S : Finset Range) (f : Family) : ℕ := ∑ r ∈ outermost S f, r.size

section
variable {S : Finset Range} {f : Family}

theorem mem_outermost {r : Range} :
    r ∈ outermost S f ↔ r ∈ S ∧ r.family = f ∧ ∀ r' ∈ S, r.Inside r' → r' = r :=
  Finset.mem_filter

/-- Every range of the family lies in an outermost one. -/
theorem exists_outermost {r : Range} (hr : r ∈ S) (hf : r.family = f) :
    ∃ r' ∈ outermost S f, r.Inside r' := by
  -- a largest one among those it lies in
  have hne : (S.filter (fun r' => r.Inside r')).Nonempty :=
    ⟨r, Finset.mem_filter.mpr ⟨hr, rfl, le_refl _, rfl⟩⟩
  obtain ⟨top, htop, hmax⟩ := Finset.exists_max_image _ Range.size hne
  obtain ⟨hmem, hinside⟩ := Finset.mem_filter.mp htop
  refine ⟨top, mem_outermost.mpr ⟨hmem, hinside.1.symm.trans hf, fun r' hr' hin => ?_⟩, hinside⟩
  have hlarger := hmax r' (Finset.mem_filter.mpr ⟨hr', hinside.trans hin⟩)
  have hsub := (Range.inside_iff hin.1).mp hin
  have hback := Range.block_subset_of_shared hlarger (hsub Range.first_mem_block)
    Range.first_mem_block
  exact ((Range.inside_iff hin.1.symm).mpr hback).antisymm hin

theorem outermost_disjoint : (outermost S f : Set Range).PairwiseDisjoint Range.block := by
  intro r hr r' hr' hne
  obtain ⟨hmem, hf, hmax⟩ := mem_outermost.mp hr
  obtain ⟨hmem', hf', hmax'⟩ := mem_outermost.mp hr'
  rcases Range.inside_or_disjoint (hf.trans hf'.symm) with hin | hin | hdisjoint
  · exact absurd (hmax r' hmem' hin).symm hne
  · exact absurd (hmax' r hmem hin) hne
  · exact hdisjoint

/-- The outermost ranges have as many addresses as they take together. -/
theorem card_outermost : ((outermost S f).biUnion Range.block).card = outermostSize S f := by
  rw [Finset.card_biUnion outermost_disjoint]
  exact Finset.sum_congr rfl (fun r _ => Range.card_block)

theorem outermost_subset : (outermost S f).biUnion Range.block ⊆ Finset.range (2 ^ f.width) := by
  intro n hn
  obtain ⟨r, hr, hmem⟩ := Finset.mem_biUnion.mp hn
  obtain ⟨-, rfl, -⟩ := mem_outermost.mp hr
  exact Range.block_subset hmem

/-- Ranges cover a family exactly if the outermost ones have as many addresses as
    there are. -/
theorem covers_iff : Covers S f ↔ outermostSize S f = 2 ^ f.width := by
  rw [← card_outermost]
  constructor
  · intro hcovers
    have hall : (outermost S f).biUnion Range.block = Finset.range (2 ^ f.width) := by
      refine Finset.Subset.antisymm outermost_subset (fun n hn => ?_)
      obtain ⟨r, hr, hfamily, hvalue⟩ := hcovers ⟨f, n, Finset.mem_range.mp hn⟩ rfl
      obtain ⟨r', hr', hin⟩ := exists_outermost hr hfamily.symm
      exact Finset.mem_biUnion.mpr
        ⟨r', hr', (Range.inside_iff hin.1).mp hin (Range.mem_block.mpr hvalue)⟩
    rw [hall, Finset.card_range]
  · rintro hcard a rfl
    have hall : (outermost S a.family).biUnion Range.block = Finset.range (2 ^ a.family.width) :=
      Finset.eq_of_subset_of_card_le outermost_subset (by rw [hcard, Finset.card_range])
    have hn : a.value ∈ (outermost S a.family).biUnion Range.block := by
      rw [hall]
      exact Finset.mem_range.mpr a.lt
    obtain ⟨r, hr, hmem⟩ := Finset.mem_biUnion.mp hn
    obtain ⟨hS, hf, -⟩ := mem_outermost.mp hr
    exact ⟨r, hS, hf.symm, Range.mem_block.mp hmem⟩

/-- A range of no bits covers its family. -/
theorem covers_of_bits_zero {r : Range} (hr : r ∈ S) (hbits : r.bits = 0) :
    Covers S r.family := by
  intro a ha
  refine ⟨r, hr, ha, ?_⟩
  have hsize : r.size = 2 ^ r.family.width := by rw [Range.size, hbits, Nat.sub_zero]
  rw [hsize, Nat.div_eq_of_lt r.lt, ← ha]
  exact Nat.div_eq_of_lt a.lt

end

end Netip
