import Mathlib

/-! # Text

    Object keys and path segments are lists of characters, ordered
    lexicographically. This module has the handful of text operations a layout
    of slash-separated keys is built from: cutting a known front or end,
    splitting, cutting at the last slash, cleaning a path, and printing and
    reading padded decimal numbers.
-/

/-- Text as a list of characters. -/
abbrev Text := List Char

namespace Text

instance : LawfulBEq Text := inferInstance

/-! ### Cutting -/

/-- `s` without `p` at its front, if it is there. -/
def trimPrefix (p s : Text) : Text := if p.isPrefixOf s then s.drop p.length else s

/-- `s` without `p` at its end, if it is there. -/
def trimSuffix (p s : Text) : Text :=
  if p.isSuffixOf s then s.take (s.length - p.length) else s

/-- White space as Go's `unicode.IsSpace` has it. -/
def isSpace (c : Char) : Bool :=
  c.toNat ∈ [0x09, 0x0a, 0x0b, 0x0c, 0x0d, 0x20, 0x85, 0xa0, 0x1680, 0x2028, 0x2029, 0x202f,
    0x205f, 0x3000] || (0x2000 ≤ c.toNat && c.toNat ≤ 0x200a)

/-- `s` without white space at either end. -/
def trimSpace (s : Text) : Text := (s.dropWhile isSpace).rdropWhile isSpace

/-- The length of a text in bytes of UTF-8. -/
def byteLength (s : Text) : ℕ := (s.map Char.utf8Size).sum

/-- `s` without the character `c` at either end. -/
def trim (c : Char) (s : Text) : Text := (s.dropWhile (· == c)).rdropWhile (· == c)

@[simp] theorem trimPrefix_append (p s : Text) : trimPrefix p (p ++ s) = s := by
  simp [trimPrefix]

@[simp] theorem trimSuffix_append (s p : Text) : trimSuffix p (s ++ p) = s := by
  simp [trimSuffix]

/-- A text without white space is left as it is. -/
theorem trimSpace_eq_self {s : Text} (h : ∀ c ∈ s, isSpace c = false) : trimSpace s = s := by
  have hfront : s.dropWhile isSpace = s := by
    rw [List.dropWhile_eq_self_iff]
    intro hpos hspace
    rw [h _ (List.getElem_mem hpos)] at hspace
    cases hspace
  rw [trimSpace, hfront, List.rdropWhile_eq_self_iff]
  intro hne hspace
  rw [h _ (List.getLast_mem hne)] at hspace
  cases hspace

/-! ### Splitting -/

/-- The pieces of `s` between occurrences of `c`. -/
def split (c : Char) (s : Text) : List Text := s.splitOn c

/-- What stands before and after the last occurrence of `c`, if there is one. -/
def cutLast (c : Char) : Text → Option (Text × Text)
  | [] => none
  | x :: s =>
    match cutLast c s with
    | some (a, b) => some (x :: a, b)
    | none => if x = c then some ([], s) else none

theorem split_of_not_mem {c : Char} {s : Text} (h : c ∉ s) : split c s = [s] :=
  List.splitOn_eq_singleton h

theorem split_append {c : Char} {a : Text} (h : c ∉ a) (b : Text) :
    split c (a ++ c :: b) = a :: split c b :=
  List.splitOn_append_cons_self_of_not_mem h b

/-- No piece contains the separator. -/
theorem not_mem_of_mem_split {c : Char} {s p : Text} (h : p ∈ split c s) : c ∉ p := by
  induction s generalizing p with
  | nil =>
    obtain rfl : p = [] := by simpa [split] using h
    simp
  | cons x s ih =>
    rw [split, List.splitOn_cons_eq_if_modifyHead] at h
    split at h
    · rcases List.mem_cons.mp h with rfl | h
      · simp
      · exact ih h
    · next hx =>
      rcases hs : s.splitOn c with _ | ⟨q, ps⟩
      · exact absurd hs (List.splitOn_ne_nil c s)
      rw [hs, List.modifyHead_cons] at h
      have hq : c ∉ q := ih (show q ∈ split c s by rw [split, hs]; exact List.mem_cons_self)
      rcases List.mem_cons.mp h with rfl | h
      · have hxc : c ≠ x := fun e => hx (by simp [e])
        simp [hxc, hq]
      · exact ih (show p ∈ split c s by rw [split, hs]; exact List.mem_cons_of_mem _ h)

/-- The pieces put together again give the text. -/
theorem intercalate_split (c : Char) (s : Text) : [c].intercalate (split c s) = s :=
  List.intercalate_splitOn c

/-- A character of joined pieces is the separator or in a piece. -/
theorem mem_intercalate {x c : Char} {parts : List Text} (h : c ∈ [x].intercalate parts) :
    c = x ∨ ∃ part ∈ parts, c ∈ part := by
  induction parts with
  | nil => cases h
  | cons first parts ih =>
    cases parts with
    | nil =>
      have hfirst : c ∈ first := by simpa [List.intercalate] using h
      exact Or.inr ⟨first, List.mem_cons_self, hfirst⟩
    | cons second parts =>
      have hsplit : c ∈ first ∨ c = x ∨ c ∈ [x].intercalate (second :: parts) := by
        simpa [List.intercalate] using h
      rcases hsplit with hfirst | rfl | hrest
      · exact Or.inr ⟨first, List.mem_cons_self, hfirst⟩
      · exact Or.inl rfl
      · rcases ih hrest with rfl | ⟨part, hpart, hc⟩
        · exact Or.inl rfl
        · exact Or.inr ⟨part, List.mem_cons_of_mem _ hpart, hc⟩

/-- Two pieces come from one separator between two texts without it. -/
theorem split_eq_pair {c : Char} {s a b : Text} :
    split c s = [a, b] ↔ s = a ++ c :: b ∧ c ∉ a ∧ c ∉ b := by
  constructor
  · intro h
    have hs := intercalate_split c s
    rw [h] at hs
    refine ⟨by simpa [List.intercalate] using hs.symm, ?_, ?_⟩
    · exact not_mem_of_mem_split (s := s) (by simp [h])
    · exact not_mem_of_mem_split (s := s) (by simp [h])
  · rintro ⟨rfl, ha, hb⟩
    rw [split_append ha, split_of_not_mem hb]

/-- A last piece without the separator is split off. -/
theorem split_snoc {c : Char} (a : Text) {b : Text} (h : c ∉ b) :
    split c (a ++ c :: b) = split c a ++ [b] := by
  rw [split, List.splitOn_append_cons_self, ← split, ← split, split_of_not_mem h]

theorem cutLast_append {c : Char} (a : Text) {b : Text} (h : c ∉ b) :
    cutLast c (a ++ c :: b) = some (a, b) := by
  have hnone : ∀ s : Text, c ∉ s → cutLast c s = none := by
    intro s
    induction s with
    | nil => intro _; rfl
    | cons x s ih =>
      intro hs
      rw [List.mem_cons, not_or] at hs
      simp [cutLast, ih hs.2, Ne.symm hs.1]
  induction a with
  | nil => simp [cutLast, hnone b h]
  | cons x a ih => simp [cutLast, ih]

/-! ### Paths -/

/-- One segment of a path being cleaned; `stack` holds the segments so far, the
    last one first. -/
def cleanStep (rooted : Bool) (stack : List Text) (segment : Text) : List Text :=
  if segment = [] ∨ segment = ['.'] then stack
  else if segment = ['.', '.'] then
    match stack with
    | top :: rest => if top = ['.', '.'] then segment :: stack else rest
    | [] => if rooted then [] else [segment]
  else segment :: stack

/-- The shortest path equal to `p` by processing `.`, `..` and repeated slashes. -/
def cleanPath (p : Text) : Text :=
  let rooted := p.head? == some '/'
  let body := ['/'].intercalate ((split '/' p).foldl (cleanStep rooted) []).reverse
  if rooted then '/' :: body else if body = [] then ['.'] else body

/-- Joins the nonempty parts with slashes and cleans the result. -/
def joinPath (parts : List Text) : Text :=
  let parts := parts.filter (· ≠ [])
  if parts = [] then [] else cleanPath (['/'].intercalate parts)

/-- A segment that cleaning leaves alone. -/
structure Segment (s : Text) : Prop where
  nonempty : s ≠ []
  slash : '/' ∉ s
  dot : s ≠ ['.']
  dots : s ≠ ['.', '.']

theorem cleanStep_segment {s : Text} (h : Segment s) (rooted : Bool) (stack : List Text) :
    cleanStep rooted stack s = s :: stack := by
  simp [cleanStep, h.nonempty, h.dot, h.dots]

theorem intercalate_snoc (c : Char) {xs : List Text} (hx : xs ≠ []) (y : Text) :
    [c].intercalate (xs ++ [y]) = [c].intercalate xs ++ c :: y := by
  induction xs with
  | nil => exact absurd rfl hx
  | cons x xs ih =>
    cases xs with
    | nil => simp [List.intercalate]
    | cons x' xs =>
      have ih' := ih (by simp)
      simp only [List.intercalate, List.cons_append, List.intersperse_cons_cons, List.flatten_cons,
        List.append_assoc] at ih' ⊢
      rw [ih']

theorem intercalate_snoc_ne_nil (c : Char) (xs : List Text) {y : Text} (hy : y ≠ []) :
    [c].intercalate (xs ++ [y]) ≠ [] := by
  by_cases hx : xs = []
  · simpa [hx, List.intercalate] using hy
  · rw [intercalate_snoc c hx]
    simp

/-- Cleaning a path whose last two pieces are segments keeps the last one at
    its end. -/
theorem cleanPath_snoc {p b d : Text} {pieces : List Text} (hp : split '/' p = pieces ++ [b])
    (hb : Segment b) (hd : Segment d) : cleanPath (p ++ '/' :: d) = cleanPath p ++ '/' :: d := by
  have hne : p ≠ [] := by
    intro h
    rw [h] at hp
    have hnil : b = [] := by
      have : b ∈ split '/' [] := by rw [hp]; simp
      simpa [split] using this
    exact hb.nonempty hnil
  have hhead : (p ++ '/' :: d).head? = p.head? := List.head?_append_of_ne_nil p hne
  unfold cleanPath
  rw [hhead, split_snoc _ hd.slash, hp]
  simp only [List.foldl_append, List.foldl_cons, List.foldl_nil, cleanStep_segment hb,
    cleanStep_segment hd, List.reverse_cons]
  rw [intercalate_snoc _ (by simp)]
  split
  · rfl
  · rw [if_neg (by simp), if_neg (intercalate_snoc_ne_nil _ _ hb.nonempty)]

/-- Joining one more segment to a path that ends in one. -/
theorem joinPath_snoc (parts : List Text) {b d : Text} (hb : Segment b) (hd : Segment d) :
    joinPath (parts ++ [b, d]) = joinPath (parts ++ [b]) ++ '/' :: d := by
  have hfilter₂ : (parts ++ [b, d]).filter (· ≠ []) = parts.filter (· ≠ []) ++ [b] ++ [d] := by
    simp [hb.nonempty, hd.nonempty]
  have hfilter₁ : (parts ++ [b]).filter (· ≠ []) = parts.filter (· ≠ []) ++ [b] := by
    simp [hb.nonempty]
  unfold joinPath
  rw [hfilter₁, hfilter₂]
  dsimp only
  rw [if_neg (by simp), if_neg (by simp), intercalate_snoc _ (by simp)]
  by_cases hnil : parts.filter (· ≠ []) = []
  · rw [hnil]
    have hsplit : split '/' (['/'].intercalate ([] ++ [b])) = [] ++ [b] := by
      simpa [List.intercalate] using split_of_not_mem hb.slash
    exact cleanPath_snoc hsplit hb hd
  · rw [intercalate_snoc _ hnil]
    exact cleanPath_snoc (split_snoc _ hb.slash) hb hd

/-- A piece lies in the text it is split from. -/
theorem infix_of_mem_split {c : Char} {s p : Text} (h : p ∈ split c s) : p <:+: s := by
  have hall : ∀ pieces : List Text, p ∈ pieces → p <:+: [c].intercalate pieces := by
    intro pieces
    induction pieces using List.reverseRecOn with
    | nil => exact fun hp => nomatch hp
    | append_singleton pieces q ih =>
      intro hp
      by_cases hnil : pieces = []
      · obtain rfl : p = q := by simpa [hnil] using hp
        simp [hnil, List.intercalate]
      · rw [intercalate_snoc _ hnil]
        rcases List.mem_append.mp hp with hp | hp
        · exact (ih hp).trans (List.prefix_append _ _).isInfix
        · rw [List.mem_singleton.mp hp]
          exact ⟨[c].intercalate pieces ++ [c], [], by simp⟩
  have hin := hall _ h
  rwa [intercalate_split] at hin

/-- How often a character occurs in pieces put together with slashes. -/
theorem count_intercalate {c : Char} (hc : c ≠ '/') (pieces : List Text) :
    (['/'].intercalate pieces).count c = (pieces.map (List.count c)).sum := by
  induction pieces using List.reverseRecOn with
  | nil => rfl
  | append_singleton pieces p ih =>
    by_cases hp : pieces = []
    · simp [hp, List.intercalate]
    · rw [intercalate_snoc _ hp, List.count_append, ih, List.count_cons_of_ne hc.symm]
      simp

theorem sum_count_cleanStep {c : Char} (hc : c ≠ '.') (rooted : Bool) {pieces : List Text}
    (hdots : ['.', '.'] ∉ pieces) (stack : List Text) :
    ((pieces.foldl (cleanStep rooted) stack).map (List.count c)).sum =
      (stack.map (List.count c)).sum + (pieces.map (List.count c)).sum := by
  induction pieces generalizing stack with
  | nil => rfl
  | cons p pieces ih =>
    rw [List.mem_cons, not_or] at hdots
    rw [List.foldl_cons, ih hdots.2]
    by_cases hp : p = [] ∨ p = ['.']
    · have hzero : p.count c = 0 := by
        rcases hp with rfl | rfl
        · rfl
        · simp [Ne.symm hc]
      have hstep : cleanStep rooted stack p = stack := by simp [cleanStep, hp]
      rw [hstep, List.map_cons, List.sum_cons, hzero, Nat.zero_add]
    · have hstep : cleanStep rooted stack p = p :: stack := by
        simp [cleanStep, hp, Ne.symm hdots.1]
      rw [hstep, List.map_cons, List.map_cons, List.sum_cons, List.sum_cons]
      omega

/-- Cleaning a path without `..` takes away slashes and dots only. -/
theorem count_cleanPath {c : Char} (hslash : c ≠ '/') (hdot : c ≠ '.') {p : Text}
    (hdots : ['.', '.'] ∉ split '/' p) : (cleanPath p).count c = p.count c := by
  have hbody : (['/'].intercalate ((split '/' p).foldl
      (cleanStep (p.head? == some '/')) []).reverse).count c = p.count c := by
    rw [count_intercalate hslash, List.map_reverse, List.sum_reverse,
      sum_count_cleanStep hdot _ hdots, List.map_nil, List.sum_nil, Nat.zero_add,
      ← count_intercalate hslash, intercalate_split]
  unfold cleanPath
  dsimp only
  split
  · rw [List.count_cons_of_ne hslash.symm, hbody]
  · split
    · next hnil =>
      rw [hnil, List.count_nil] at hbody
      rw [← hbody, List.count_eq_zero]
      simpa using hdot
    · exact hbody

/-! ### Bytes of a path -/

theorem byteLength_append (a b : Text) : byteLength (a ++ b) = byteLength a + byteLength b := by
  simp [byteLength]

theorem byteLength_cons (c : Char) (s : Text) :
    byteLength (c :: s) = c.utf8Size + byteLength s := by
  simp [byteLength]

/-- The bytes of pieces and of the slash after each. -/
def pieceBytes (pieces : List Text) : ℕ := (pieces.map (fun p => byteLength p + 1)).sum

theorem pieceBytes_cons (p : Text) (pieces : List Text) :
    pieceBytes (p :: pieces) = byteLength p + 1 + pieceBytes pieces := by
  simp [pieceBytes]

theorem byteLength_intercalate {pieces : List Text} (h : pieces ≠ []) :
    byteLength (['/'].intercalate pieces) + 1 = pieceBytes pieces := by
  induction pieces using List.reverseRecOn with
  | nil => exact absurd rfl h
  | append_singleton pieces p ih =>
    by_cases hp : pieces = []
    · simp [hp, List.intercalate, pieceBytes]
    · have hslash : Char.utf8Size '/' = 1 := rfl
      have hmore := ih hp
      rw [intercalate_snoc _ hp, byteLength_append, byteLength_cons, hslash]
      simp only [pieceBytes, List.map_append, List.sum_append, List.map_cons, List.map_nil,
        List.sum_cons, List.sum_nil] at hmore ⊢
      omega

/-- A step of cleaning adds no more than its segment. -/
theorem pieceBytes_cleanStep (rooted : Bool) (stack : List Text) (segment : Text) :
    pieceBytes (cleanStep rooted stack segment) ≤ pieceBytes stack + byteLength segment + 1 := by
  unfold cleanStep
  split
  · omega
  split
  · cases stack with
    | nil =>
      dsimp only
      split
      · simp [pieceBytes]
      · rw [pieceBytes_cons]
        omega
    | cons top rest =>
      dsimp only
      split
      · rw [pieceBytes_cons segment]
        omega
      · rw [pieceBytes_cons]
        omega
  · rw [pieceBytes_cons]
    omega

theorem pieceBytes_foldl (rooted : Bool) (pieces stack : List Text) :
    pieceBytes (pieces.foldl (cleanStep rooted) stack) ≤ pieceBytes stack + pieceBytes pieces := by
  induction pieces generalizing stack with
  | nil => simp [pieceBytes]
  | cons p pieces ih =>
    have hstep := pieceBytes_cleanStep rooted stack p
    have hrest := ih (cleanStep rooted stack p)
    rw [List.foldl_cons, pieceBytes_cons]
    omega

/-- Cleaning a path adds at most one byte. -/
theorem byteLength_cleanPath_le (p : Text) : byteLength (cleanPath p) ≤ byteLength p + 1 := by
  have hsplit : pieceBytes (split '/' p) = byteLength p + 1 := by
    have hne : split '/' p ≠ [] := List.splitOn_ne_nil '/' p
    rw [← byteLength_intercalate hne, intercalate_split]
  have hclean := pieceBytes_foldl (p.head? == some '/') (split '/' p) []
  have hone : ∀ c : Char, c.utf8Size = 1 → byteLength [c] = 1 := by
    intro c hc
    simp [byteLength, hc]
  unfold cleanPath
  dsimp only
  generalize hstack : (split '/' p).foldl (cleanStep (p.head? == some '/')) [] = stack at hclean ⊢
  have hbody : byteLength (['/'].intercalate stack.reverse) ≤ byteLength p := by
    by_cases hnil : stack = []
    · simp [hnil, List.intercalate, byteLength]
    · have hne : stack.reverse ≠ [] := by simpa using hnil
      have hbytes := byteLength_intercalate hne
      have hreverse : pieceBytes stack.reverse = pieceBytes stack := by
        simp [pieceBytes, List.sum_reverse]
      have hzero : pieceBytes [] = 0 := rfl
      omega
  split
  · rw [byteLength_cons]
    have hslash : Char.utf8Size '/' = 1 := rfl
    omega
  · split
    · rw [hone '.' rfl]
      omega
    · omega

theorem pieceBytes_filter_le (q : Text → Bool) (pieces : List Text) :
    pieceBytes (pieces.filter q) ≤ pieceBytes pieces := by
  induction pieces with
  | nil => exact Nat.le_refl _
  | cons p pieces ih =>
    rw [List.filter_cons]
    split
    · rw [pieceBytes_cons, pieceBytes_cons]
      omega
    · rw [pieceBytes_cons]
      omega

theorem byteLength_joinPath_le (parts : List Text) :
    byteLength (joinPath parts) ≤ pieceBytes parts := by
  unfold joinPath
  dsimp only
  split
  · simp [byteLength]
  · next hne =>
    have hbytes := byteLength_intercalate hne
    have hfilter := pieceBytes_filter_le (fun p => decide (p ≠ [])) parts
    calc byteLength (cleanPath (['/'].intercalate (parts.filter (· ≠ []))))
        ≤ byteLength (['/'].intercalate (parts.filter (· ≠ []))) + 1 :=
          byteLength_cleanPath_le _
      _ = pieceBytes (parts.filter (· ≠ [])) := hbytes
      _ ≤ pieceBytes parts := hfilter

/-! ### Numbers -/

/-- `n` in decimal, with leading zeros up to `width` digits. -/
def padded (width n : ℕ) : Text :=
  let digits := Nat.toDigits 10 n
  List.replicate (width - digits.length) '0' ++ digits

/-- The value of a text of decimal digits. -/
def number (s : Text) : ℕ := s.foldl (fun n c => 10 * n + (c.toNat - 48)) 0

theorem number_lt {s : Text} (h : ∀ c ∈ s, c ≤ '9') : number s < 10 ^ s.length := by
  induction s using List.reverseRecOn with
  | nil => decide
  | append_singleton s c ih =>
    have hs := ih (fun d hd => h d (List.mem_append_left _ hd))
    have hc : c.toNat ≤ 57 := h c (by simp)
    have hstep : number (s ++ [c]) = 10 * number s + (c.toNat - 48) := by simp [number]
    rw [hstep, List.length_append, List.length_singleton, Nat.pow_succ]
    omega

/-- Padding does not change the value. -/
@[simp] theorem number_padded (width n : ℕ) : number (padded width n) = n := by
  have hzeros : ∀ k : ℕ,
      (List.replicate k '0').foldl (fun n c => 10 * n + (c.toNat - 48)) 0 = 0 := by
    intro k
    induction k with
    | zero => rfl
    | succ k ih => exact ih
  unfold number padded
  rw [List.foldl_append, hzeros]
  exact Nat.ofDigitChars_toDigits (by decide) (by decide)

theorem length_padded {width n : ℕ} (hw : 0 < width) (h : n < 10 ^ width) :
    (padded width n).length = width := by
  have hle := (Nat.length_toDigits_le_iff (b := 10) (n := n) (by decide) hw).mpr h
  simp only [padded, List.length_append, List.length_replicate]
  omega

theorem isDigit_of_mem_padded {width n : ℕ} {c : Char} (h : c ∈ padded width n) :
    c.isDigit = true := by
  rcases List.mem_append.mp h with h | h
  · rw [(List.mem_replicate.mp h).2]
    rfl
  · exact Nat.isDigit_of_mem_toDigits (by decide) (by decide) h

end Text
