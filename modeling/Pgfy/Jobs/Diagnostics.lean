import Pgfy.Jobs.Tool

/-! # Reading the diagnostics of a tool in chunks

    The diagnostics arrive through a pipe, in chunks that follow no rule. `Bufio` is
    the buffered reader between the pipe and the loops of `readToolErrors`: a buffer
    that is filled by whatever each read gives. It is a `SliceReader`, and what is
    reported does not depend on the chunks.
-/

namespace Pgfy

/-! ### A buffer filled in chunks -/

/-- The buffered reader of a pipe: what is in its buffer, what each read of the
    pipe will give, whether the pipe reports its end together with its last bytes,
    and whether it has reported it. -/
structure Bufio where
  buf : Text
  source : List Text
  early : Bool := false
  ended : Bool := false
  /-- a read gives something or reports the end -/
  given : ∀ chunk ∈ source, chunk ≠ []
  drained : ended = true → source = []

namespace Bufio

def left (b : Bufio) : Text := b.buf ++ b.source.flatten

/-- One read of the pipe into the room that is left in the buffer. -/
def fill (size : ℕ) (b : Bufio) : Bufio :=
  match h : b.source with
  | [] => { b with ended := true, drained := fun _ => h }
  | chunk :: rest =>
    if hroom : chunk.length ≤ size - b.buf.length then
      { b with
        buf := b.buf ++ chunk, source := rest, ended := b.early && rest.isEmpty
        given := fun c hc => b.given c (h ▸ List.mem_cons_of_mem _ hc)
        drained := fun he => List.isEmpty_iff.1 (Bool.and_eq_true_iff.1 he).2 }
    else
      { b with
        buf := b.buf ++ chunk.take (size - b.buf.length)
        source := chunk.drop (size - b.buf.length) :: rest
        ended := false
        given := by
          intro c hc
          cases hc with
          | head => exact fun hnil => hroom (List.drop_eq_nil_iff.1 hnil)
          | tail _ hc => exact b.given c (h ▸ List.mem_cons_of_mem _ hc)
        drained := fun he => nomatch he }

/-- The loop of `ReadSlice`, for a number of reads: the buffer is searched, then an
    end that was reported counts, then a full buffer, and only then is it filled. -/
def sliceLoop (size : ℕ) : ℕ → Bufio → Text × SliceEnd × Bufio
  | 0, b => (b.buf, .full, { b with buf := [] })
  | n + 1, b =>
    if '\n' ∈ b.buf then
      (b.buf.takeWhile (· ≠ '\n') ++ ['\n'], .newline,
        { b with buf := (b.buf.dropWhile (· ≠ '\n')).drop 1 })
    else if b.ended then
      (b.buf, .eof, { b with buf := [], ended := false, drained := fun h => nomatch h })
    else if size ≤ b.buf.length then (b.buf, .full, { b with buf := [] })
    else sliceLoop size n (b.fill size)

/-- How many reads the pipe can still answer, its end among them. -/
def reads (b : Bufio) : ℕ :=
  if b.ended then 0 else b.source.flatten.length + b.source.length + 1

def readSlice (size : ℕ) (b : Bufio) : Text × SliceEnd × Bufio := sliceLoop size (b.reads + 1) b

theorem fill_left (size : ℕ) (b : Bufio) : (b.fill size).left = b.left := by
  unfold fill
  split
  · rfl
  · rename_i chunk rest h
    have hleft : b.left = b.buf ++ (chunk ++ rest.flatten) := by
      rw [left, h, List.flatten_cons]
    rw [hleft]
    split
    · simp [left]
    · simp only [left, List.flatten_cons, List.append_assoc]
      rw [← List.append_assoc (List.take _ _), List.take_append_drop]

/-- A read brings the end of the pipe nearer. -/
theorem fill_reads {size : ℕ} {b : Bufio} (hended : b.ended = false)
    (hroom : b.buf.length < size) : (b.fill size).reads < b.reads := by
  have hb : b.reads = b.source.flatten.length + b.source.length + 1 := by simp [reads, hended]
  unfold fill
  split
  · rw [hb]
    exact Nat.succ_pos _
  · rename_i chunk rest h
    have hlen : b.reads = chunk.length + rest.flatten.length + (rest.length + 1) + 1 := by
      rw [hb, h, List.flatten_cons, List.length_append, List.length_cons]
    rw [hlen]
    split
    · simp only [reads]
      split <;> omega
    · simp only [reads, Bool.false_eq_true, if_false, List.flatten_cons, List.length_append,
        List.length_drop, List.length_cons]
      omega

/-- However the pipe gives its bytes, the slices are the documented ones. -/
theorem sliceLoop_sliced {size : ℕ} (hsize : 0 < size) : ∀ (n : ℕ) (b : Bufio), b.reads < n →
    Sliced b.left (sliceLoop size n b).1 (sliceLoop size n b).2.1
      (sliceLoop size n b).2.2.left := by
  intro n
  induction n with
  | zero => intro b hn; omega
  | succ n ih =>
    intro b hn
    unfold sliceLoop
    split
    · rename_i hmem
      obtain ⟨piece, rest, hp, hbuf, hline, hrest⟩ := split_newline hmem
      rw [hline, hrest, left, hbuf]
      simpa [left] using @Sliced.newline piece (rest ++ b.source.flatten) hp
    · rename_i hmem
      split
      · rename_i hended
        simpa [left, b.drained hended] using Sliced.eof hmem
      · rename_i hended
        split
        · rename_i hfull
          have hsome : b.buf ≠ [] := by
            intro hnil
            rw [hnil, List.length_nil] at hfull
            omega
          exact @Sliced.full b.buf b.source.flatten hmem hsome
        · rename_i hroom
          have hreads : (b.fill size).reads < n :=
            lt_of_lt_of_le (fill_reads (by simpa using hended) (by omega)) (by omega)
          rw [← fill_left size b]
          exact ih (b.fill size) hreads

/-- The reader the worker uses, over a pipe. -/
def reader : SliceReader where
  State := Bufio
  left := left
  readSlice := readSlice bufferSize
  sliced := fun b => sliceLoop_sliced (by decide) _ b (Nat.lt_succ_self _)

end Bufio

/-! ### The count -/

/-- The number in a summary, however large it is. -/
def reported (line : Text) : Option ℕ := (summaryDigits line).map Text.number

theorem summaryNumber_of_reported {line : Text} {n : ℕ} (h : reported line = some n)
    (hn : n < 2 ^ 63) : summaryNumber line = some (n : ℤ) := by
  obtain ⟨digits, hdigits, rfl⟩ := Option.map_eq_some_iff.1 h
  unfold summaryNumber
  rw [hdigits]
  exact if_pos hn

theorem summaryNumber_of_not_reported {line : Text} (h : reported line = none) :
    summaryNumber line = none := by
  simp [summaryNumber, Option.map_eq_none_iff.1 h]

theorem lastSummary_none {lines : List Text} (h : ∀ line ∈ lines, reported line = none) :
    lastSummary lines = none := by
  induction lines with
  | nil => rfl
  | cons line rest ih =>
    unfold lastSummary
    rw [ih (fun l hl => h l (List.mem_cons_of_mem _ hl)),
      summaryNumber_of_not_reported (h line List.mem_cons_self)]
    rfl

/-- The last summary is found wherever it stands. -/
theorem lastSummary_append {line : Text} {n : ℕ} (h : reported line = some n) (hn : n < 2 ^ 63)
    {after : List Text} (hafter : ∀ l ∈ after, reported l = none) (before : List Text) :
    lastSummary (before ++ line :: after) = some ((n : ℤ), after) := by
  induction before with
  | nil =>
    rw [List.nil_append]
    unfold lastSummary
    rw [lastSummary_none hafter, summaryNumber_of_reported h hn]
    rfl
  | cons first before ih =>
    rw [List.cons_append]
    unfold lastSummary
    rw [ih]

/-- A piece with nothing left of it counts for nothing. -/
theorem tallied_noted (lines : List Text) : tallied (noted lines) = tallied lines := by
  have h := foldl_tally_noted lines 0
  rw [foldl_tally _ 0 (by decide), foldl_tally _ 0 (by decide)] at h
  simpa [tallied] using h

theorem errorLines_nonneg (lines : List Text) : 0 ≤ errorLines lines := Int.natCast_nonneg _

/-- However the diagnostics arrive: the lines that are processed are those of the
    stream, cut at the limit and without what ends them, up to a last piece with
    nothing left of it. The errors are the number in the last summary and the error
    lines after it, or all error lines if there is no summary, as far as the numbers
    fit an integer of the machine. The stream is read to its end, and the excerpt is
    bounded. -/
theorem diagnostics_as_lines (b : SliceReader) (s : b.State) :
    (b.readToolErrors s).2.1 = noted (stderrLines (b.left s)) ∧
      (∀ before line after n, (b.readToolErrors s).2.1 = before ++ line :: after →
        reported line = some n → (∀ l ∈ after, reported l = none) → n < 2 ^ 63 →
        n + errorLines after < 2 ^ 63 →
        (b.readToolErrors s).1.errors = n + errorLines after) ∧
      ((∀ l ∈ (b.readToolErrors s).2.1, reported l = none) →
        errorLines (b.readToolErrors s).2.1 < 2 ^ 63 →
        (b.readToolErrors s).1.errors = errorLines (b.readToolErrors s).2.1) ∧
      b.left (b.readToolErrors s).2.2 = [] ∧ (b.readToolErrors s).1.excerpt.length ≤ 4096 := by
  obtain ⟨-, hlines, hleft⟩ := b.readLines_spec ((b.left s).length + 1) {} s (Nat.lt_succ_self _)
  have hnoted : (b.readToolErrors s).2.1 = noted (stderrLines (b.left s)) := hlines
  have herrors : (b.readToolErrors s).1.errors = tallied (b.readToolErrors s).2.1 := by
    rw [(b.readToolErrors_spec s).1, hnoted, tallied_noted]
  refine ⟨hnoted, ?_, ?_, hleft, (b.readToolErrors_spec s).2.2.2⟩
  · intro before line after n hsplit hline hafter hn hfits
    have hpos := errorLines_nonneg after
    rw [herrors, hsplit, tallied, lastSummary_append hline hn hafter]
    exact int64_of_nonneg (by omega) hfits
  · intro hnone hfits
    rw [herrors, tallied, lastSummary_none hnone]
    exact int64_of_nonneg (errorLines_nonneg _) hfits

/-- A pipe that gives two errors and a summary between them, cut within the summary. -/
def chattyPipe : Bufio where
  buf := []
  source := ["pg_restore: error: one\r\nerrors ignored on res".toList,
    "tore: 7\npg_restore: error: two".toList]
  given := by decide
  drained := fun h => absurd h (by decide)

theorem diagnostics_as_lines_chatty :
    (Bufio.reader.readToolErrors chattyPipe).2.1 =
        ["pg_restore: error: one".toList, "errors ignored on restore: 7".toList,
          "pg_restore: error: two".toList] ∧
      (Bufio.reader.readToolErrors chattyPipe).1.errors = 8 := by
  have hlines : (Bufio.reader.readToolErrors chattyPipe).2.1 =
      ["pg_restore: error: one".toList, "errors ignored on restore: 7".toList,
        "pg_restore: error: two".toList] := by
    rw [(diagnostics_as_lines Bufio.reader chattyPipe).1]
    decide +kernel
  have herrors := (diagnostics_as_lines Bufio.reader chattyPipe).2.1
    ["pg_restore: error: one".toList] "errors ignored on restore: 7".toList
    ["pg_restore: error: two".toList] 7 hlines (by decide +kernel) (by decide +kernel)
    (by decide +kernel) (by decide +kernel)
  refine ⟨hlines, herrors.trans ?_⟩
  decide +kernel

end Pgfy
