import Pgfy.Framework.Text

/-! # Indented JSON

    JSON as an encoder writes it that indents by one space a level and escapes
    what is special in HTML: strings are bytes, of which those that are not
    UTF-8 are replaced one by one. A value is given by its text at each depth of
    nesting, so that a document is put together from the constructors below
    without a tree in between.

    For each constructor there is a bound on the length of what it writes. The
    worst case of a string is six bytes for each of its own.
-/

namespace Json

abbrev Bytes := List UInt8

/-- The bytes of a text of ASCII characters. -/
def ascii (s : String) : Bytes := s.toList.map (fun c => c.toNat.toUInt8)

/-! ### Strings -/

def hexDigit (b : UInt8) : UInt8 := (ascii "0123456789abcdef").getD b.toNat 0

/-- An ASCII byte in a string. -/
def escapeByte (b : UInt8) : Bytes :=
  if b = 0x22 ∨ b = 0x5C then [0x5C, b]
  else if b = 0x08 then ascii "\\b"
  else if b = 0x0C then ascii "\\f"
  else if b = 0x0A then ascii "\\n"
  else if b = 0x0D then ascii "\\r"
  else if b = 0x09 then ascii "\\t"
  -- other control characters, and `<`, `>` and `&`
  else if b < 0x20 ∨ b = 0x3C ∨ b = 0x3E ∨ b = 0x26 then
    ascii "\\u00" ++ [hexDigit (b / 16), hexDigit (b % 16)]
  else [b]

/-- How many bytes follow the first one of a character, and where the first of
    them must lie. -/
def leadByte (b : UInt8) : Option (ℕ × UInt8 × UInt8) :=
  if 0xC2 ≤ b ∧ b ≤ 0xDF then some (1, 0x80, 0xBF)
  else if b = 0xE0 then some (2, 0xA0, 0xBF)
  else if b = 0xED then some (2, 0x80, 0x9F)
  else if 0xE1 ≤ b ∧ b ≤ 0xEF then some (2, 0x80, 0xBF)
  else if b = 0xF0 then some (3, 0x90, 0xBF)
  else if 0xF1 ≤ b ∧ b ≤ 0xF3 then some (3, 0x80, 0xBF)
  else if b = 0xF4 then some (3, 0x80, 0x8F)
  else none

/-- The number of further bytes of the character that begins with `b`, if `rest`
    goes on with them. -/
def characterTail (b : UInt8) (rest : Bytes) : Option ℕ :=
  match leadByte b, rest with
  | some (n, low, high), second :: more =>
    if low ≤ second ∧ second ≤ high ∧ n ≤ more.length + 1 ∧
        (more.take (n - 1)).all (fun c => 0x80 ≤ c && c ≤ 0xBF) then some n
    else none
  | _, _ => none

/-- The last digit of the escape of U+2028 or U+2029. -/
def lineSeparator (b : UInt8) (rest : Bytes) : Option UInt8 :=
  if b = 0xE2 ∧ rest.take 2 = [0x80, 0xA8] then some 0x38
  else if b = 0xE2 ∧ rest.take 2 = [0x80, 0xA9] then some 0x39
  else none

/-- The rest of a string: `pending` bytes of a character are still to come, which
    are copied or left out. -/
def escapeFrom : (copy : Bool) → (pending : ℕ) → Bytes → Bytes
  | _, _, [] => []
  | copy, pending + 1, b :: rest => (if copy then [b] else []) ++ escapeFrom copy pending rest
  | _, 0, b :: rest =>
    if b < 0x80 then escapeByte b ++ escapeFrom true 0 rest
    else match characterTail b rest, lineSeparator b rest with
      | none, _ => ascii "\\ufffd" ++ escapeFrom true 0 rest
      | some n, some digit => ascii "\\u202" ++ digit :: escapeFrom false n rest
      | some n, none => b :: escapeFrom true n rest

def quote (b : Bytes) : Bytes := 0x22 :: escapeFrom true 0 b ++ [0x22]

theorem length_escapeByte_le (b : UInt8) : (escapeByte b).length ≤ 6 := by
  unfold escapeByte
  split_ifs
  all_goals simp [ascii]

/-- Every byte of a string becomes six at most. -/
theorem length_escapeFrom_le (copy : Bool) (pending : ℕ) (b : Bytes) :
    (escapeFrom copy pending b).length ≤ 6 * b.length := by
  induction b generalizing copy pending with
  | nil => simp [escapeFrom]
  | cons c rest ih =>
    rw [List.length_cons]
    cases pending with
    | succ pending =>
      have hrest := ih copy pending
      have hfirst : (if copy then [c] else []).length ≤ 1 := by split <;> simp
      rw [escapeFrom, List.length_append]
      omega
    | zero =>
      rw [escapeFrom]
      split
      · have hrest := ih true 0
        have hbyte := length_escapeByte_le c
        rw [List.length_append]
        omega
      split
      · have hrest := ih true 0
        have hescape : (ascii "\\ufffd").length = 6 := rfl
        rw [List.length_append]
        omega
      · next n digit _ _ =>
        have hrest := ih false n
        have hescape : (ascii "\\u202").length = 5 := rfl
        rw [List.length_append, List.length_cons]
        omega
      · next n _ _ =>
        have hrest := ih true n
        rw [List.length_cons]
        omega

theorem length_quote_le (b : Bytes) : (quote b).length ≤ 6 * b.length + 2 := by
  have hbody := length_escapeFrom_le true 0 b
  simp only [quote, List.length_cons, List.length_append, List.length_nil]
  omega

/-! ### Documents -/

/-- A value, by its text at a depth of nesting. -/
abbrev Value := ℕ → Bytes

def string (b : Bytes) : Value := fun _ => quote b

def integer (n : ℤ) : Value := fun _ =>
  (if n < 0 then [0x2D] else []) ++ (Nat.toDigits 10 n.natAbs).map (fun c => c.toNat.toUInt8)

def boolean (b : Bool) : Value := fun _ => ascii (if b then "true" else "false")

def null : Value := fun _ => ascii "null"

def newline (depth : ℕ) : Bytes := 0x0A :: List.replicate depth 0x20

/-- The elements of an array or object, each on a line of its own. -/
def lines (depth : ℕ) : List Bytes → Bytes
  | [] => []
  | [x] => newline depth ++ x
  | x :: rest => newline depth ++ x ++ 0x2C :: lines depth rest

def array : List Value → Value
  | [], _ => ascii "[]"
  | xs, depth => 0x5B :: lines (depth + 1) (xs.map (· (depth + 1))) ++ newline depth ++ [0x5D]

def member (depth : ℕ) (field : String × Value) : Bytes :=
  quote (ascii field.1) ++ ascii ": " ++ field.2 depth

def object : List (String × Value) → Value
  | [], _ => ascii "\x7b\x7d"
  | fields, depth =>
    0x7B :: lines (depth + 1) (fields.map (member (depth + 1))) ++ newline depth ++ [0x7D]

/-! ### Lengths -/

/-- A number of `k` digits. -/
theorem length_integer_le {n : ℤ} {k : ℕ} (hk : 0 < k) (h : n.natAbs < 10 ^ k) (depth : ℕ) :
    (integer n depth).length ≤ k + 1 := by
  have hdigits : (Nat.toDigits 10 n.natAbs).length ≤ k :=
    (Nat.length_toDigits_le_iff (b := 10) (n := n.natAbs) (by decide) hk).mpr h
  have hsign : (if n < 0 then [(0x2D : UInt8)] else []).length ≤ 1 := by split <;> simp
  simp only [integer, List.length_append, List.length_map]
  omega

theorem length_newline (depth : ℕ) : (newline depth).length = depth + 1 := by
  simp [newline]

/-- A line takes its element, its indentation, the line break and a comma. -/
theorem length_lines_le (depth : ℕ) (xs : List Bytes) :
    (lines depth xs).length ≤ (xs.map (fun x => x.length + depth + 2)).sum := by
  induction xs with
  | nil => exact Nat.le_refl 0
  | cons x rest ih =>
    cases rest with
    | nil =>
      simp only [lines, List.length_append, length_newline, List.map_cons, List.map_nil,
        List.sum_cons, List.sum_nil]
      omega
    | cons y rest =>
      rw [List.map_cons, List.sum_cons]
      simp only [lines, List.length_append, List.length_cons, length_newline] at ih ⊢
      omega

/-- An array of elements that have at most `k` bytes each. -/
theorem length_array_le {xs : List Value} {depth k : ℕ}
    (h : ∀ x ∈ xs, (x (depth + 1)).length ≤ k) :
    (array xs depth).length ≤ xs.length * (k + depth + 3) + depth + 3 := by
  cases xs with
  | nil =>
    have hempty : (array [] depth).length = 2 := rfl
    omega
  | cons x rest =>
    have hlines := length_lines_le (depth + 1) ((x :: rest).map (· (depth + 1)))
    have hsum : (((x :: rest).map (· (depth + 1))).map (fun b => b.length + (depth + 1) + 2)).sum ≤
        (x :: rest).length * (k + depth + 3) := by
      rw [List.map_map]
      refine (List.sum_le_card_nsmul _ (k + depth + 3) (fun n hn => ?_)).trans (by simp)
      obtain ⟨y, hy, rfl⟩ := List.mem_map.mp hn
      have hlength := h y hy
      simp only [Function.comp]
      omega
    simp only [array, List.length_cons, List.length_append, List.length_nil, length_newline]
      at hlines hsum ⊢
    omega

/-- The text a member of an object takes, with its line. -/
def memberBytes (depth : ℕ) (field : String × Value) : ℕ :=
  (quote (ascii field.1)).length + (field.2 depth).length + depth + 4

theorem length_object_le (fields : List (String × Value)) (depth : ℕ) :
    (object fields depth).length ≤ (fields.map (memberBytes (depth + 1))).sum + depth + 3 := by
  cases fields with
  | nil =>
    have hempty : (object [] depth).length = 2 := rfl
    omega
  | cons field rest =>
    have hlines := length_lines_le (depth + 1) ((field :: rest).map (member (depth + 1)))
    have hmember : (fun b : Bytes => b.length + (depth + 1) + 2) ∘ member (depth + 1) =
        memberBytes (depth + 1) := by
      funext f
      simp only [Function.comp, member, memberBytes, List.length_append,
        show (ascii ": ").length = 2 from rfl]
      omega
    rw [List.map_map, hmember] at hlines
    simp only [object, List.length_cons, List.length_append, List.length_nil, length_newline]
      at hlines ⊢
    omega

end Json
