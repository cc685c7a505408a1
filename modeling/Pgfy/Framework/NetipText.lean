import Pgfy.Framework.Netip
import Pgfy.Framework.Text

/-! # Addresses and ranges as text

    How IP addresses and ranges are read and written. IPv6 is written in eight
    groups, the longest row of zero groups as `::`; it is read in any of its
    forms, with capital letters, an embedded IPv4 address or a zone. What is
    written of a range is read as that range.
-/

namespace Netip

variable {c : Char} {groups : List ℕ}

/-! ### Digits -/

/-- A number in `k` digits of a base, the highest first. -/
def digitsOf (base : ℕ) : ℕ → ℕ → List ℕ
  | 0, _ => []
  | k + 1, n => digitsOf base k (n / base) ++ [n % base]

def ofDigits (base : ℕ) (digits : List ℕ) : ℕ := digits.foldl (fun n d => n * base + d) 0

theorem ofDigits_snoc (base : ℕ) (digits : List ℕ) (d : ℕ) :
    ofDigits base (digits ++ [d]) = ofDigits base digits * base + d := by
  simp [ofDigits]

@[simp] theorem length_digitsOf (base k n : ℕ) : (digitsOf base k n).length = k := by
  induction k generalizing n with
  | zero => rfl
  | succ k ih => simp [digitsOf, ih]

theorem ofDigits_digitsOf {base k n : ℕ} (h : n < base ^ k) :
    ofDigits base (digitsOf base k n) = n := by
  induction k generalizing n with
  | zero =>
    rw [pow_zero, Nat.lt_one_iff] at h
    rw [h]
    rfl
  | succ k ih =>
    have hbase : 0 < base := by
      rcases Nat.eq_zero_or_pos base with rfl | hpos
      · simp at h
      · exact hpos
    have hrest : n / base < base ^ k := by
      rw [Nat.div_lt_iff_lt_mul hbase, ← pow_succ]
      exact h
    rw [digitsOf, ofDigits_snoc, ih hrest, Nat.div_add_mod']

theorem lt_of_mem_digitsOf {base k n d : ℕ} (hbase : 0 < base) (h : d ∈ digitsOf base k n) :
    d < base := by
  induction k generalizing n with
  | zero => cases h
  | succ k ih =>
    rcases List.mem_append.mp h with h | h
    · exact ih h
    · rw [List.mem_singleton.mp h]
      exact Nat.mod_lt _ hbase

def digitCharacter (d : ℕ) : Char := "0123456789abcdef".toList.getD d '0'

/-- A number of three digits at most in decimal. -/
def decimalText (x : ℕ) : Text :=
  (if 100 ≤ x then [digitCharacter (x / 100)] else []) ++
    (if 10 ≤ x then [digitCharacter (x / 10 % 10)] else []) ++ [digitCharacter (x % 10)]

theorem digitCharacter_spec : ∀ d < 10, (digitCharacter d).isDigit = true ∧
    (digitCharacter d).toNat - 48 = d ∧ (0 < d → digitCharacter d ≠ '0') := by decide

/-- It has digits only, and a leading zero only if it is zero. -/
theorem decimalText_shape {x : ℕ} (h : x < 1000) :
    decimalText x ≠ [] ∧ (∀ c ∈ decimalText x, c.isDigit = true) ∧
      ((decimalText x).length = 1 ∨ (decimalText x).head? ≠ some '0') := by
  unfold decimalText
  refine ⟨by simp, ?_, ?_⟩
  · intro c hc
    simp only [List.mem_append, List.mem_ite_nil_right, List.mem_singleton] at hc
    rcases hc with (⟨-, rfl⟩ | ⟨-, rfl⟩) | rfl
    all_goals exact (digitCharacter_spec _ (by omega)).1
  · split_ifs with hhundred hten hten
    · right
      simpa using (digitCharacter_spec (x / 100) (by omega)).2.2 (by omega)
    · omega
    · right
      simpa using (digitCharacter_spec (x / 10 % 10) (by omega)).2.2 (by omega)
    · left
      rfl

theorem isDigit_of_mem_decimalText {x : ℕ} (h : x < 1000) (hc : c ∈ decimalText x) :
    c.isDigit = true := (decimalText_shape h).2.1 c hc

theorem number_decimalText {x : ℕ} (h : x < 1000) : Text.number (decimalText x) = x := by
  have hdigit : ∀ d < 10, (digitCharacter d).toNat - 48 = d := fun d hd =>
    (digitCharacter_spec d hd).2.1
  have hhundreds := hdigit (x / 100) (by omega)
  have htens := hdigit (x / 10 % 10) (by omega)
  have hones := hdigit (x % 10) (by omega)
  unfold decimalText Text.number
  split_ifs
  all_goals simp only [List.nil_append, List.append_nil, List.cons_append, List.foldl_cons,
    List.foldl_nil, hhundreds, htens, hones]
  all_goals omega

/-- A number of 16 bits in hexadecimal. -/
def hexText (x : ℕ) : Text :=
  (if 0x1000 ≤ x then [digitCharacter (x / 0x1000)] else []) ++
    (if 0x100 ≤ x then [digitCharacter (x / 0x100 % 16)] else []) ++
    (if 0x10 ≤ x then [digitCharacter (x / 0x10 % 16)] else []) ++ [digitCharacter (x % 16)]

def hexValue (c : Char) : Option ℕ :=
  if '0' ≤ c ∧ c ≤ '9' then some (c.toNat - '0'.toNat)
  else if 'a' ≤ c ∧ c ≤ 'f' then some (c.toNat - 'a'.toNat + 10)
  else if 'A' ≤ c ∧ c ≤ 'F' then some (c.toNat - 'A'.toNat + 10)
  else none

def isHex (c : Char) : Bool := (hexValue c).isSome

theorem isHex_bounds (h : isHex c = true) : 48 ≤ c.toNat ∧ c.toNat ≤ 57 ∨
    65 ≤ c.toNat ∧ c.toNat ≤ 70 ∨ 97 ≤ c.toNat ∧ c.toNat ≤ 102 := by
  unfold isHex hexValue at h
  split_ifs at h with hdigit hlower hupper
  · exact Or.inl hdigit
  · exact Or.inr (Or.inr hlower)
  · exact Or.inr (Or.inl hupper)
  · cases h

theorem isHex_of_isDigit (h : c.isDigit = true) : isHex c = true := by
  have hval : 48 ≤ c.val ∧ c.val ≤ 57 := by simpa [Char.isDigit] using h
  have hdigit : '0' ≤ c ∧ c ≤ '9' := hval
  simp [isHex, hexValue, hdigit]

theorem not_mark_of_isHex (h : isHex c = true) : c ∉ ['.', ':', '%'] := by
  intro hmark
  simp only [List.mem_cons, List.not_mem_nil, or_false] at hmark
  rcases hmark with rfl | rfl | rfl
  all_goals exact absurd h (by decide)

def hexNumber (s : Text) : ℕ := s.foldl (fun n c => n * 16 + (hexValue c).getD 0) 0

theorem hexValue_digitCharacter : ∀ d < 16, hexValue (digitCharacter d) = some d := by decide

theorem hexNumber_snoc (s : Text) (c : Char) :
    hexNumber (s ++ [c]) = hexNumber s * 16 + (hexValue c).getD 0 := by
  simp [hexNumber]

theorem hexNumber_hexText {x : ℕ} (h : x < 65536) : hexNumber (hexText x) = x := by
  have hdigit : ∀ d < 16, (hexValue (digitCharacter d)).getD 0 = d := fun d hd => by
    rw [hexValue_digitCharacter d hd]
    rfl
  unfold hexText
  rw [hexNumber_snoc, hdigit _ (by omega)]
  split_ifs
  all_goals simp only [List.nil_append, List.append_nil, List.cons_append, hexNumber,
    List.foldl_cons, List.foldl_nil]
  all_goals try rw [hdigit (x / 0x1000) (by omega)]
  all_goals try rw [hdigit (x / 0x100 % 16) (by omega)]
  all_goals try rw [hdigit (x / 0x10 % 16) (by omega)]
  all_goals omega

/-- It has between one and four digits. -/
theorem hexText_shape {x : ℕ} (h : x < 65536) :
    hexText x ≠ [] ∧ (hexText x).length ≤ 4 ∧ ∀ c ∈ hexText x, isHex c = true := by
  have hdigit : ∀ d < 16, isHex (digitCharacter d) = true := fun d hd => by
    rw [isHex, hexValue_digitCharacter d hd]
    rfl
  unfold hexText
  refine ⟨by simp, ?_, ?_⟩
  · split_ifs <;> simp
  · intro c hc
    simp only [List.mem_append, List.mem_ite_nil_right, List.mem_singleton] at hc
    rcases hc with ((⟨-, rfl⟩ | ⟨-, rfl⟩) | ⟨-, rfl⟩) | rfl
    all_goals exact hdigit _ (by omega)

/-! ### IPv4 -/

/-- A decimal number up to 255, without leading zeros. -/
def octet (s : Text) : Option ℕ :=
  if s ≠ [] ∧ s.all Char.isDigit ∧ (s.length = 1 ∨ s.head? ≠ some '0') ∧ Text.number s ≤ 255 then
    some (Text.number s)
  else none

def parse4 (s : Text) : Option ℕ :=
  match (Text.split '.' s).map octet with
  | [some a, some b, some c, some d] => some (ofDigits 256 [a, b, c, d])
  | _ => none

def text4 (n : ℕ) : Text := ['.'].intercalate ((digitsOf 256 4 n).map decimalText)

theorem octet_decimalText {x : ℕ} (h : x < 256) : octet (decimalText x) = some x := by
  obtain ⟨hne, hdigits, hzero⟩ := decimalText_shape (show x < 1000 by omega)
  have hnumber := number_decimalText (show x < 1000 by omega)
  unfold octet
  rw [hnumber, if_pos ⟨hne, List.all_eq_true.mpr hdigits, hzero, by omega⟩]

theorem parse4_text4 {n : ℕ} (h : n < 2 ^ 32) : parse4 (text4 n) = some n := by
  have hlt : ∀ d ∈ digitsOf 256 4 n, d < 256 := fun d => lt_of_mem_digitsOf (by decide)
  have hsplit : Text.split '.' (text4 n) = (digitsOf 256 4 n).map decimalText := by
    refine List.splitOn_intercalate _ (fun part hpart hdot => ?_) (by simp [digitsOf])
    obtain ⟨d, hd, rfl⟩ := List.mem_map.mp hpart
    exact absurd (isDigit_of_mem_decimalText ((hlt d hd).trans (by decide)) hdot) (by decide)
  have hoctets : ((digitsOf 256 4 n).map decimalText).map octet = (digitsOf 256 4 n).map some := by
    rw [List.map_map]
    exact List.map_congr_left (fun d hd => octet_decimalText (hlt d hd))
  have hvalue : ofDigits 256 (digitsOf 256 4 n) = n := ofDigits_digitsOf h
  unfold parse4
  rw [hsplit, hoctets]
  exact congrArg some hvalue

/-! ### IPv6 -/

/-- Reads groups of hexadecimal digits, with the place of the `::` among them. -/
def readGroups : ℕ → List ℕ → Option ℕ → Text → Option (List ℕ × Option ℕ × Text)
  | 0, groups, ellipsis, s => some (groups, ellipsis, s)
  | n + 1, groups, ellipsis, s =>
    let digits := s.takeWhile isHex
    let groups' := groups ++ [hexNumber digits]
    if digits = [] ∨ 4 < digits.length then none
    else match s.dropWhile isHex with
      | [] => some (groups', ellipsis, [])
      | '.' :: _ =>
        -- an IPv4 address stands for the last two groups
        if (ellipsis = none ∧ groups.length ≠ 6) ∨ 8 < groups.length + 2 then none
        else (parse4 s).map (fun v => (groups ++ [v / 65536, v % 65536], ellipsis, []))
      | [':'] => none
      | ':' :: ':' :: more =>
        if ellipsis ≠ none then none
        else if more = [] then some (groups', some groups'.length, [])
        else readGroups n groups' (some groups'.length) more
      | ':' :: more => readGroups n groups' ellipsis more
      | _ => none

/-- Puts zeros in the place of the `::`, which stands for one group at least. -/
def expandGroups : List ℕ × Option ℕ × Text → Option (List ℕ)
  | (groups, ellipsis, rest) =>
    if rest ≠ [] then none
    else if groups.length < 8 then
      ellipsis.map (fun k =>
        groups.take k ++ List.replicate (8 - groups.length) 0 ++ groups.drop k)
    else if ellipsis ≠ none then none
    else some groups

/-- The eight groups of an address without a zone. -/
def parseGroups : Text → Option (List ℕ)
  | [':', ':'] => some (List.replicate 8 0)
  | ':' :: ':' :: more => (readGroups 8 [] (some 0) more).bind expandGroups
  | s => (readGroups 8 [] none s).bind expandGroups

/-- The length of the row of zeros at a place. -/
def zerosFrom (groups : List ℕ) (i : ℕ) : ℕ := ((groups.drop i).takeWhile (· == 0)).length

/-- The first of the longest rows of two zeros or more. -/
def longestRow (groups : List ℕ) : Option (ℕ × ℕ) :=
  (List.range 8).foldl (fun best i =>
    if 2 ≤ zerosFrom groups i ∧ best.elim 0 (fun b => b.2 - b.1) < zerosFrom groups i
    then some (i, i + zerosFrom groups i) else best) none

def joinGroups (groups : List ℕ) : Text := [':'].intercalate (groups.map hexText)

def text6 (groups : List ℕ) : Text :=
  match longestRow groups with
  | none => joinGroups groups
  | some (first, last) =>
    joinGroups (groups.take first) ++ ':' :: ':' :: joinGroups (groups.drop last)

theorem joinGroups_cons (g : ℕ) (h : groups ≠ []) :
    joinGroups (g :: groups) = hexText g ++ ':' :: joinGroups groups := by
  cases groups with
  | nil => exact absurd rfl h
  | cons g' groups => simp [joinGroups, List.intercalate]

theorem joinGroups_singleton (g : ℕ) : joinGroups [g] = hexText g := by
  simp [joinGroups, List.intercalate]

/-- The first group of a text, whatever follows it. -/
theorem takeWhile_hexText {g : ℕ} (hg : g < 65536) {rest : Text}
    (hrest : ∀ c ∈ rest.head?, isHex c = false) :
    (hexText g ++ rest).takeWhile isHex = hexText g ∧
      (hexText g ++ rest).dropWhile isHex = rest := by
  obtain ⟨-, -, hhex⟩ := hexText_shape hg
  have hstop : rest.takeWhile isHex = [] ∧ rest.dropWhile isHex = rest := by
    cases rest with
    | nil => exact ⟨rfl, rfl⟩
    | cons c rest =>
      have hc := hrest c rfl
      exact ⟨by simp [hc], by simp [hc]⟩
  rw [List.takeWhile_append_of_pos hhex, List.dropWhile_append_of_pos hhex, hstop.1, hstop.2]
  exact ⟨List.append_nil _, rfl⟩

theorem head?_joinGroups (hlt : ∀ g ∈ groups, g < 65536) (hc : c ∈ (joinGroups groups).head?) :
    isHex c = true := by
  cases groups with
  | nil => cases hc
  | cons g groups =>
    obtain ⟨hne, -, hhex⟩ := hexText_shape (hlt g List.mem_cons_self)
    have hfirst : (joinGroups (g :: groups)).head? = (hexText g).head? := by
      by_cases hgroups : groups = []
      · rw [hgroups, joinGroups_singleton]
      · rw [joinGroups_cons g hgroups, List.head?_append_of_ne_nil _ hne]
    rw [hfirst] at hc
    exact hhex c (List.mem_of_head? hc)

theorem joinGroups_ne_nil (h : groups ≠ []) (hlt : ∀ g ∈ groups, g < 65536) :
    joinGroups groups ≠ [] := by
  cases groups with
  | nil => exact absurd rfl h
  | cons g groups =>
    obtain ⟨hne, -, -⟩ := hexText_shape (hlt g List.mem_cons_self)
    by_cases hgroups : groups = []
    · rw [hgroups, joinGroups_singleton]
      exact hne
    · rw [joinGroups_cons g hgroups]
      simp

section
variable {n g : ℕ} {groups : List ℕ} {ellipsis : Option ℕ} {rest : Text}

theorem not_hex_colon (rest : Text) : ∀ c ∈ (':' :: rest).head?, isHex c = false := by
  intro c hc
  obtain rfl : ':' = c := Option.some.inj hc
  decide

/-- A group is short enough. -/
theorem hexText_accepted (hg : g < 65536) : ¬ (hexText g = [] ∨ 4 < (hexText g).length) := by
  obtain ⟨hne, hlength, -⟩ := hexText_shape hg
  rw [not_or]
  exact ⟨hne, by omega⟩

theorem readGroups_last (hg : g < 65536) :
    readGroups (n + 1) groups ellipsis (hexText g) = some (groups ++ [g], ellipsis, []) := by
  obtain ⟨htake, hdrop⟩ := @takeWhile_hexText g hg [] (by simp)
  rw [List.append_nil] at htake hdrop
  unfold readGroups
  rw [htake, hdrop, if_neg (hexText_accepted hg), hexNumber_hexText hg]

theorem readGroups_colon (hg : g < 65536) (hc : c ≠ ':') :
    readGroups (n + 1) groups ellipsis (hexText g ++ ':' :: c :: rest) =
      readGroups n (groups ++ [g]) ellipsis (c :: rest) := by
  obtain ⟨htake, hdrop⟩ := takeWhile_hexText hg (not_hex_colon (c :: rest))
  rw [readGroups, htake, hdrop, if_neg (hexText_accepted hg), hexNumber_hexText hg]
  split
  next h => cases h
  next h => cases h
  next h => cases h
  next h =>
    cases h
    exact absurd rfl hc
  next h =>
    cases h
    rfl
  next hno => exact absurd rfl (hno _)

theorem readGroups_ellipsis (hg : g < 65536) :
    readGroups (n + 1) groups none (hexText g ++ ':' :: ':' :: rest) =
      if rest = [] then some (groups ++ [g], some (groups ++ [g]).length, [])
      else readGroups n (groups ++ [g]) (some (groups ++ [g]).length) rest := by
  obtain ⟨htake, hdrop⟩ := takeWhile_hexText hg (not_hex_colon (':' :: rest))
  rw [readGroups, htake, hdrop, if_neg (hexText_accepted hg), hexNumber_hexText hg]
  rfl

/-- A group before others. -/
theorem readGroups_cons (hg : g < 65536) {gs : List ℕ} (hne : gs ≠ [])
    (hlt : ∀ g ∈ gs, g < 65536) :
    readGroups (n + 1) groups ellipsis (joinGroups (g :: gs) ++ rest) =
      readGroups n (groups ++ [g]) ellipsis (joinGroups gs ++ rest) := by
  rw [joinGroups_cons g hne]
  -- what follows the colon begins with a digit
  cases hjoin : joinGroups gs with
  | nil => exact absurd hjoin (joinGroups_ne_nil hne hlt)
  | cons c more =>
    have hc : isHex c = true := head?_joinGroups hlt (by rw [hjoin]; rfl)
    have hcolon : c ≠ ':' := by
      rintro rfl
      exact absurd hc (by decide)
    rw [List.append_assoc, List.cons_append, List.cons_append, readGroups_colon hg hcolon]

/-- Groups to the end of the text. -/
theorem readGroups_joinGroups {gs : List ℕ} (hne : gs ≠ []) (hlen : gs.length ≤ n)
    (hlt : ∀ g ∈ gs, g < 65536) :
    readGroups n groups ellipsis (joinGroups gs) = some (groups ++ gs, ellipsis, []) := by
  induction gs generalizing n groups with
  | nil => exact absurd rfl hne
  | cons g gs ih =>
    obtain ⟨hg, hrest⟩ := List.forall_mem_cons.mp hlt
    rw [List.length_cons] at hlen
    obtain ⟨n, rfl⟩ := Nat.exists_eq_succ_of_ne_zero (show n ≠ 0 by omega)
    by_cases hgs : gs = []
    · rw [hgs, joinGroups_singleton]
      exact readGroups_last hg
    · have hmore := @ih n (groups ++ [g]) hgs (by omega) hrest
      rw [List.append_assoc, List.singleton_append] at hmore
      rw [← List.append_nil (joinGroups _), readGroups_cons hg hgs hrest, List.append_nil, hmore]

/-- Groups, a `::`, and more groups. -/
theorem readGroups_around {front back : List ℕ} (hne : front ≠ [])
    (hlen : front.length + back.length ≤ n) (hfront : ∀ g ∈ front, g < 65536)
    (hback : ∀ g ∈ back, g < 65536) :
    readGroups n groups none (joinGroups front ++ ':' :: ':' :: joinGroups back) =
      some (groups ++ front ++ back, some (groups ++ front).length, []) := by
  induction front generalizing n groups with
  | nil => exact absurd rfl hne
  | cons g front ih =>
    obtain ⟨hg, hrest⟩ := List.forall_mem_cons.mp hfront
    rw [List.length_cons] at hlen
    obtain ⟨n, rfl⟩ := Nat.exists_eq_succ_of_ne_zero (show n ≠ 0 by omega)
    by_cases hfront' : front = []
    · subst hfront'
      rw [joinGroups_singleton, readGroups_ellipsis hg]
      by_cases hback' : back = []
      · subst hback'
        rw [if_pos (by rfl), List.append_nil]
      · rw [if_neg (joinGroups_ne_nil hback' hback),
          readGroups_joinGroups hback' (by omega) hback]
    · have hmore := @ih n (groups ++ [g]) hfront' (by omega) hrest
      rw [List.append_assoc groups, List.singleton_append] at hmore
      rw [readGroups_cons hg hfront' hrest, hmore]

end

/-- The row found is a row of zeros. -/
theorem longestRow_spec {first last : ℕ} (h : longestRow groups = some (first, last)) :
    2 ≤ zerosFrom groups first ∧ last = first + zerosFrom groups first := by
  refine List.foldlRecOn (motive := fun best : Option (ℕ × ℕ) =>
    ∀ b ∈ best, 2 ≤ zerosFrom groups b.1 ∧ b.2 = b.1 + zerosFrom groups b.1)
    (List.range 8) _ (by simp) (fun best hbest i _ => ?_) (first, last) h
  split
  next hlonger =>
    intro b hb
    obtain rfl := Option.some.inj hb
    exact ⟨hlonger.1, rfl⟩
  next => exact hbest

theorem split_at_zeros (groups : List ℕ) (i : ℕ) :
    groups = groups.take i ++ List.replicate (zerosFrom groups i) 0 ++
      groups.drop (i + zerosFrom groups i) := by
  have hsplit := @List.takeWhile_append_dropWhile ℕ (· == 0) (groups.drop i)
  have hzeros : (groups.drop i).takeWhile (· == 0) = List.replicate (zerosFrom groups i) 0 := by
    refine List.eq_replicate_of_mem (fun g hg => ?_)
    have hg := @List.mem_takeWhile_imp ℕ (· == 0) _ _ hg
    exact beq_iff_eq.mp hg
  have hrest : (groups.drop i).dropWhile (· == 0) = groups.drop (i + zerosFrom groups i) := by
    rw [← List.drop_drop]
    conv_rhs => rw [← hsplit]
    exact (List.drop_left' rfl).symm
  conv_lhs => rw [← List.take_append_drop i groups, ← hsplit]
  rw [hzeros, hrest, List.append_assoc]

theorem parseGroups_of_hex {s : Text} (h : ∀ c ∈ s.head?, isHex c = true) :
    parseGroups s = (readGroups 8 [] none s).bind expandGroups := by
  unfold parseGroups
  split
  next => exact absurd (h ':' rfl) (by decide)
  next => exact absurd (h ':' rfl) (by decide)
  next => rfl

theorem expandGroups_around {front back : List ℕ} {zeros : ℕ} (hzeros : 0 < zeros)
    (hlen : front.length + zeros + back.length = 8) :
    expandGroups (front ++ back, some front.length, []) =
      some (front ++ List.replicate zeros 0 ++ back) := by
  have hfew : (front ++ back).length < 8 := by
    rw [List.length_append]
    omega
  have hgap : 8 - (front ++ back).length = zeros := by
    rw [List.length_append]
    omega
  rw [expandGroups, if_neg (by simp), if_pos hfew, Option.map_some, hgap, List.take_left,
    List.drop_left]

/-- An address as it is written is read as that address. -/
theorem parseGroups_text6 (hlen : groups.length = 8) (hlt : ∀ g ∈ groups, g < 65536) :
    parseGroups (text6 groups) = some groups := by
  have hne : groups ≠ [] := by
    rintro rfl
    cases hlen
  unfold text6
  cases hrow : longestRow groups with
  | none =>
    dsimp only
    rw [parseGroups_of_hex (fun c => head?_joinGroups hlt),
      readGroups_joinGroups hne (by omega) hlt]
    simp [expandGroups, hlen]
  | some row =>
    obtain ⟨first, last⟩ := row
    obtain ⟨htwo, hlast⟩ := longestRow_spec hrow
    have hsplit := split_at_zeros groups first
    rw [← hlast] at hsplit
    dsimp only
    generalize groups.take first = front at hsplit ⊢
    generalize groups.drop last = back at hsplit ⊢
    generalize zerosFrom groups first = zeros at hsplit htwo
    subst hsplit
    have hfront : ∀ g ∈ front, g < 65536 := fun g hg => hlt g (by simp [hg])
    have hback : ∀ g ∈ back, g < 65536 := fun g hg => hlt g (by simp [hg])
    have hsum : front.length + zeros + back.length = 8 := by simpa [add_assoc] using hlen
    have hexpand := @expandGroups_around front back zeros (by omega) hsum
    by_cases hfront' : front = []
    · subst hfront'
      by_cases hback' : back = []
      · -- every group is zero
        subst hback'
        obtain rfl : zeros = 8 := by simpa using hsum
        rfl
      · have hread := @readGroups_joinGroups 8 [] (some 0) back hback' (by omega) hback
        show parseGroups (':' :: ':' :: joinGroups back) = _
        have hparse : parseGroups (':' :: ':' :: joinGroups back) =
            (readGroups 8 [] (some 0) (joinGroups back)).bind expandGroups := by
          cases hjoin : joinGroups back with
          | nil => exact absurd hjoin (joinGroups_ne_nil hback' hback)
          | cons c more => rfl
        rw [hparse, hread]
        exact hexpand
    · have hread := @readGroups_around 8 [] front back hfront' (by omega) hfront hback
      have hhead : ∀ c ∈ (joinGroups front ++ ':' :: ':' :: joinGroups back).head?,
          isHex c = true := by
        rw [List.head?_append_of_ne_nil _ (joinGroups_ne_nil hfront' hfront)]
        exact fun c => head?_joinGroups hfront
      rw [parseGroups_of_hex hhead, hread]
      exact hexpand

/-! ### Addresses -/

/-- An IPv6 address, and whether it has a zone. -/
def parse6 (s : Text) : Option (Addr × Bool) :=
  let zone := s.dropWhile (· ≠ '%')
  if zone = ['%'] then none
  else do
    let groups ← parseGroups (s.takeWhile (· ≠ '%'))
    let a ← Addr.ofValue .v6 (ofDigits 65536 groups)
    some (a, zone ≠ [])

def parseAddr (s : Text) : Option (Addr × Bool) :=
  -- the first of these marks tells the family
  match s.find? (· ∈ ['.', ':', '%']) with
  | some '.' => do
    let value ← parse4 s
    let a ← Addr.ofValue .v4 value
    some (a, false)
  | some ':' => parse6 s
  | _ => none

def Addr.text (a : Addr) : Text :=
  match a.family with
  | .v4 => text4 a.value
  | .v6 =>
    if a.is4In6 then "::ffff:".toList ++ text4 (a.value % 2 ^ 32)
    else text6 (digitsOf 65536 8 a.value)

theorem mem_text4 {n : ℕ} (h : c ∈ text4 n) : c.isDigit = true ∨ c = '.' := by
  rcases Text.mem_intercalate h with rfl | ⟨part, hpart, hc⟩
  · exact Or.inr rfl
  · obtain ⟨d, hd, rfl⟩ := List.mem_map.mp hpart
    have hd : d < 256 := lt_of_mem_digitsOf (by decide) hd
    exact Or.inl (isDigit_of_mem_decimalText (by omega) hc)

theorem mem_joinGroups (hlt : ∀ g ∈ groups, g < 65536) (h : c ∈ joinGroups groups) :
    isHex c = true ∨ c = ':' := by
  rcases Text.mem_intercalate h with rfl | ⟨part, hpart, hc⟩
  · exact Or.inr rfl
  · obtain ⟨g, hg, rfl⟩ := List.mem_map.mp hpart
    exact Or.inl ((hexText_shape (hlt g hg)).2.2 c hc)

theorem mem_text6 (hlt : ∀ g ∈ groups, g < 65536) (h : c ∈ text6 groups) :
    isHex c = true ∨ c = ':' := by
  unfold text6 at h
  split at h
  next => exact mem_joinGroups hlt h
  next first last _ =>
    rw [List.mem_append, List.mem_cons, List.mem_cons] at h
    rcases h with h | h | h | h
    · exact mem_joinGroups (fun g hg => hlt g (List.mem_of_mem_take hg)) h
    · exact Or.inr h
    · exact Or.inr h
    · exact mem_joinGroups (fun g hg => hlt g (List.mem_of_mem_drop hg)) h

theorem dot_mem_text4 (n : ℕ) : '.' ∈ text4 n := by
  simp [text4, digitsOf, List.intercalate]

theorem colon_mem_text6 (hlen : groups.length = 8) : ':' ∈ text6 groups := by
  unfold text6
  split
  next =>
    -- there are two groups at least
    match groups, hlen with
    | g :: g' :: _, _ =>
      rw [joinGroups_cons g (List.cons_ne_nil g' _)]
      simp
  next => simp

/-- The mark that tells the family, in a text with no other one. -/
theorem find?_mark {s : Text} {mark : Char} (hmem : mark ∈ s) (hmark : mark ∈ ['.', ':', '%'])
    (hother : ∀ c ∈ s, c ∈ ['.', ':', '%'] → c = mark) :
    s.find? (· ∈ ['.', ':', '%']) = some mark := by
  cases hfind : s.find? (· ∈ ['.', ':', '%']) with
  | none =>
    have hnone := List.find?_eq_none.mp hfind mark hmem
    exact absurd hmark (by simpa using hnone)
  | some c =>
    have hc := List.find?_some hfind
    rw [hother c (List.mem_of_find?_eq_some hfind) (by simpa using hc)]

theorem parseAddr_of_dot {s : Text} {value : ℕ} {a : Addr}
    (hfind : s.find? (· ∈ ['.', ':', '%']) = some '.') (hvalue : parse4 s = some value)
    (ha : Addr.ofValue .v4 value = some a) : parseAddr s = some (a, false) := by
  unfold parseAddr
  rw [hfind, hvalue]
  simp [ha]

theorem parseAddr_of_colon {s : Text} (hfind : s.find? (· ∈ ['.', ':', '%']) = some ':') :
    parseAddr s = parse6 s := by
  unfold parseAddr
  rw [hfind]
  rfl

/-- An IPv6 address without a zone. -/
theorem parse6_of_groups {s : Text} {a : Addr} (hzone : '%' ∉ s)
    (hgroups : parseGroups s = some groups)
    (ha : Addr.ofValue .v6 (ofDigits 65536 groups) = some a) : parse6 s = some (a, false) := by
  have hall : ∀ c ∈ s, decide (c ≠ '%') = true := by
    intro c hc
    rw [decide_eq_true_eq]
    exact ne_of_mem_of_not_mem hc hzone
  have htake : s.takeWhile (· ≠ '%') = s := List.takeWhile_eq_self_iff.mpr hall
  have hdrop : s.dropWhile (· ≠ '%') = [] := List.dropWhile_eq_nil_iff.mpr hall
  unfold parse6
  rw [htake, hdrop, hgroups]
  simp [ha]

/-- What is written of an address is read as that address. -/
theorem parseAddr_text {a : Addr} (h : a.is4In6 = false) : parseAddr a.text = some (a, false) := by
  obtain ⟨family, value, hlt⟩ := a
  cases family with
  | v4 =>
    refine parseAddr_of_dot (find?_mark (dot_mem_text4 value) (by decide) ?_) (parse4_text4 hlt)
      (dif_pos hlt)
    intro c hc hmark
    rcases mem_text4 hc with hdigit | hdot
    · exact absurd hmark (not_mark_of_isHex (isHex_of_isDigit hdigit))
    · exact hdot
  | v6 =>
    have hgroups : ∀ g ∈ digitsOf 65536 8 value, g < 65536 := fun g =>
      lt_of_mem_digitsOf (by decide)
    have hlen : (digitsOf 65536 8 value).length = 8 := length_digitsOf _ _ _
    have hvalue : ofDigits 65536 (digitsOf 65536 8 value) = value := ofDigits_digitsOf hlt
    have hchars : ∀ c ∈ text6 (digitsOf 65536 8 value), c ∈ ['.', ':', '%'] → c = ':' := by
      intro c hc hmark
      rcases mem_text6 hgroups hc with hhex | hcolon
      · exact absurd hmark (not_mark_of_isHex hhex)
      · exact hcolon
    have hzone : '%' ∉ text6 (digitsOf 65536 8 value) := fun hc =>
      absurd (hchars '%' hc (by decide)) (by decide)
    have htext : Addr.text ⟨.v6, value, hlt⟩ = text6 (digitsOf 65536 8 value) := by
      simp [Addr.text, h]
    rw [htext, parseAddr_of_colon (find?_mark (colon_mem_text6 hlen) (by decide) hchars)]
    refine parse6_of_groups hzone (parseGroups_text6 hlen hgroups) ?_
    rw [hvalue]
    exact dif_pos hlt

/-! ### Ranges -/

/-- A decimal number without sign and leading zeros. -/
def parseBits (s : Text) : Option ℕ :=
  if s ≠ [] ∧ s.all Char.isDigit ∧ (s.length = 1 ∨ s.head? ≠ some '0') then some (Text.number s)
  else none

/-- An address without a zone, a slash, and the number of bits. -/
def parsePrefix (s : Text) : Option Prefix := do
  let (front, back) ← Text.cutLast '/' s
  let (a, zone) ← parseAddr front
  if zone then none
  else
    let bits ← parseBits back
    if h : bits ≤ a.family.width then some ⟨a, bits, h⟩ else none

/-- A single address as a range; its zone is dropped. -/
def parseSingle (s : Text) : Option Prefix :=
  (parseAddr s).map (fun a => ⟨a.1, a.1.family.width, le_refl _⟩)

def Range.text (r : Range) : Text := r.addr.text ++ '/' :: decimalText r.bits

theorem parseBits_decimalText {bits : ℕ} (h : bits < 1000) :
    parseBits (decimalText bits) = some bits := by
  obtain ⟨hne, hdigits, hzero⟩ := decimalText_shape h
  unfold parseBits
  rw [if_pos ⟨hne, List.all_eq_true.mpr hdigits, hzero⟩, number_decimalText h]

theorem Range.bits_lt (r : Range) : r.bits < 1000 :=
  lt_of_le_of_lt r.bits_le (by cases r.family <;> decide)

/-- What is written of a range is read as that range. -/
theorem parsePrefix_text {r : Range} (h : r.addr.is4In6 = false) :
    parsePrefix r.text = some ⟨r.addr, r.bits, r.bits_le⟩ := by
  have hslash : '/' ∉ decimalText r.bits := fun hmem =>
    absurd (isDigit_of_mem_decimalText r.bits_lt hmem) (by decide)
  unfold parsePrefix Range.text
  rw [Text.cutLast_append _ hslash]
  show ((parseAddr r.addr.text).bind _) = _
  rw [parseAddr_text h]
  show ((parseBits (decimalText r.bits)).bind _) = _
  rw [parseBits_decimalText r.bits_lt]
  exact dif_pos r.bits_le

theorem not_space_of_isHex (h : isHex c = true) : Text.isSpace c = false := by
  have hbounds := isHex_bounds h
  simp only [Text.isSpace, List.mem_cons, List.not_mem_nil, or_false, Bool.or_eq_false_iff,
    Bool.and_eq_false_iff, decide_eq_false_iff_not]
  omega

theorem mem_addrText {a : Addr} (h : a.is4In6 = false) (hc : c ∈ a.text) :
    isHex c = true ∨ c = '.' ∨ c = ':' := by
  obtain ⟨family, value, hlt⟩ := a
  cases family with
  | v4 =>
    rcases mem_text4 hc with hdigit | hdot
    · exact Or.inl (isHex_of_isDigit hdigit)
    · exact Or.inr (Or.inl hdot)
  | v6 =>
    simp only [Addr.text, h, Bool.false_eq_true, if_false] at hc
    rcases mem_text6 (fun g => lt_of_mem_digitsOf (by decide)) hc with hhex | hcolon
    · exact Or.inl hhex
    · exact Or.inr (Or.inr hcolon)

/-- A range is written without white space. -/
theorem trimSpace_text {r : Range} (h : r.addr.is4In6 = false) :
    Text.trimSpace r.text = r.text := by
  refine Text.trimSpace_eq_self (fun c hc => ?_)
  rcases List.mem_append.mp hc with hc | hc
  · rcases mem_addrText h hc with hhex | rfl | rfl
    · exact not_space_of_isHex hhex
    · rfl
    · rfl
  · rcases List.mem_cons.mp hc with rfl | hc
    · rfl
    · exact not_space_of_isHex (isHex_of_isDigit (isDigit_of_mem_decimalText r.bits_lt hc))

end Netip
