import Pgfy.Storage.Client

/-! # Running the PostgreSQL tools

    A tool that ran and complained is a result; one that never ran, or was
    stopped, is a failure. Its diagnostics are read to the end, so that the count
    of errors is complete and the tool never blocks on a full pipe. Only a bounded
    excerpt is kept for display.

    The stream of diagnostics is a text whose characters stand for bytes. A buffered
    reader hands it on in slices: `SliceReader` is what is documented of such a
    reader, and the loops of `readBoundedLine` and `readToolErrors` are stated over
    any of them, with the lines they process kept beside the result. `readLines_spec`
    says that all of it depends on the lines of the stream alone.
-/

namespace Pgfy

open Calendar Storage

/-! ### Readers that give slices -/

/-- How `ReadSlice` ends. -/
inductive SliceEnd where
  | newline
  | full
  | eof
deriving DecidableEq

/-- What is documented of `ReadSlice`: a slice is the next part of the stream. It
    ends with the first newline, or is a full buffer without one, or all that is
    left. -/
inductive Sliced : Text → Text → SliceEnd → Text → Prop where
  | newline {piece rest : Text} (h : '\n' ∉ piece) :
      Sliced (piece ++ '\n' :: rest) (piece ++ ['\n']) .newline rest
  | full {chunk rest : Text} (h : '\n' ∉ chunk) (hsome : chunk ≠ []) :
      Sliced (chunk ++ rest) chunk .full rest
  | eof {chunk : Text} (h : '\n' ∉ chunk) : Sliced chunk chunk .eof []

/-- A buffered reader: the bytes it has still to give, and `ReadSlice`. -/
structure SliceReader where
  State : Type
  left : State → Text
  readSlice : State → Text × SliceEnd × State
  sliced : ∀ s, Sliced (left s) (readSlice s).1 (readSlice s).2.1 (left (readSlice s).2.2)

def trimNewlines (line : Text) : Text := line.rdropWhile (fun c => c = '\r' || c = '\n')

/-- White space as it is written in UTF-8, a character for a byte. -/
def spaceBytes : List Text :=
  ([0x09, 0x0a, 0x0b, 0x0c, 0x0d, 0x20, 0x85, 0xa0, 0x1680, 0x2028, 0x2029, 0x202f, 0x205f,
      0x3000] ++ List.range' 0x2000 11).map
    (fun n => (String.utf8EncodeChar (Char.ofNat n)).map (fun b : UInt8 => Char.ofNat b.toNat))

/-- `s` without the words at its front, for a number of them. -/
def skipWords (words : List Text) : ℕ → Text → Text
  | 0, s => s
  | n + 1, s =>
    match words.find? (·.isPrefixOf s) with
    | some w => skipWords words n (s.drop w.length)
    | none => s

/-- `TrimSpace` of bytes. -/
def trimSpaceBytes (s : Text) : Text :=
  let s := skipWords spaceBytes s.length s
  (skipWords (spaceBytes.map List.reverse) s.length s.reverse).reverse

/-- A machine integer. -/
def int64 (n : ℤ) : ℤ := Int.bmod n (2 ^ 64)

/-- What is known of a tool that ran. -/
structure ToolRun where
  exit : ℤ := 0
  errors : ℤ := 0
  counted : String := "counted from the output"
  excerpt : Text := []
  lastLine : Text := []
  err : Option Err := none
deriving DecidableEq

def errorMark : Text := ": error:".toList

def summaryMark : Text := "errors ignored on restore: ".toList

/-- The first match of `errors ignored on restore: (\d+)`: its digits. -/
def summaryDigits : Text → Option Text
  | [] => none
  | c :: rest =>
    let digits := ((c :: rest).drop summaryMark.length).takeWhile Char.isDigit
    if summaryMark.isPrefixOf (c :: rest) && digits ≠ [] then some digits else summaryDigits rest

/-- The number in a summary, if there is one and `Atoi` accepts it. -/
def summaryNumber (line : Text) : Option ℤ :=
  match summaryDigits line with
  | some digits => if Text.number digits < 2 ^ 63 then some (Text.number digits) else none
  | none => none

/-- Takes note of one line. -/
def ToolRun.note (run : ToolRun) (line : Text) : ToolRun :=
  let run := if trimSpaceBytes line ≠ [] then { run with lastLine := line } else run
  let run := if errorMark <:+: line then { run with errors := int64 (run.errors + 1) } else run
  let run := match summaryNumber line with
    | some n => { run with errors := n, counted := "reported by the tool" }
    | none => run
  { run with excerpt := run.excerpt ++ (line ++ ['\n']).take (4096 - run.excerpt.length) }

def lineLimit : ℕ := 2 ^ 20

namespace SliceReader

variable (b : SliceReader)

/-- The loop of `readBoundedLine`, for a number of parts. -/
def readParts (limit : ℕ) : ℕ → Text → b.State → Text × Bool × b.State
  | 0, line, s => (trimNewlines line, true, s)
  | n + 1, line, s =>
    let (chunk, ended, s) := b.readSlice s
    let line := line ++ chunk.take (limit - line.length)
    match ended with
    | .full => readParts limit n line s
    | .newline => (trimNewlines line, false, s)
    | .eof => (trimNewlines line, true, s)

/-- The next line, cut at a limit, and whether the stream has ended with it. -/
def readBoundedLine (limit : ℕ) (s : b.State) : Text × Bool × b.State :=
  b.readParts limit ((b.left s).length + 1) [] s

/-- The loop of `readToolErrors`, for a number of lines: the run, the lines that
    were processed, and the reader as it is left. -/
def readLines : ℕ → ToolRun → b.State → ToolRun × List Text × b.State
  | 0, run, s => (run, [], s)
  | n + 1, run, s =>
    let (line, ended, s) := b.readBoundedLine lineLimit s
    if ended ∧ line = [] then (run, [], s)
    else if ended then (run.note line, [line], s)
    else
      let (run, lines, s) := readLines n (run.note line) s
      (run, line :: lines, s)

/-- Reads the whole stream, so that the count is complete, and keeps an excerpt. -/
def readToolErrors (s : b.State) : ToolRun × List Text × b.State :=
  let (run, lines, s) := b.readLines ((b.left s).length + 1) {} s
  ({ run with excerpt := trimSpaceBytes run.excerpt, lastLine := run.lastLine.take 300 }, lines, s)

end SliceReader

/-! ### The stream as a whole -/

/-- The next part of a stream: up to a newline, or as much as the buffer holds,
    or all that is left. The rest of the stream comes last. -/
def readSlice (size : ℕ) (r : Text) : Text × SliceEnd × Text :=
  if '\n' ∈ r.take size then
    (r.takeWhile (· ≠ '\n') ++ ['\n'], .newline, (r.dropWhile (· ≠ '\n')).drop 1)
  else if size ≤ r.length then (r.take size, .full, r.drop size)
  else (r, .eof, [])

theorem split_newline {r : Text} (h : '\n' ∈ r) : ∃ piece rest, '\n' ∉ piece ∧
    r = piece ++ '\n' :: rest ∧ r.takeWhile (· ≠ '\n') = piece ∧
    (r.dropWhile (· ≠ '\n')).drop 1 = rest := by
  obtain ⟨piece, rest, rfl, hp⟩ := List.eq_append_cons_of_mem h
  have hall : ∀ c ∈ piece, decide (c ≠ '\n') = true :=
    fun c hc => decide_eq_true (fun heq => hp (heq ▸ hc))
  refine ⟨piece, rest, hp, rfl, ?_, ?_⟩
  · rw [List.takeWhile_append_of_pos hall]
    simp
  · rw [List.dropWhile_append_of_pos hall]
    simp

theorem readSlice_sliced {size : ℕ} (hsize : 0 < size) (r : Text) :
    Sliced r (readSlice size r).1 (readSlice size r).2.1 (readSlice size r).2.2 := by
  unfold readSlice
  split
  · next hmem =>
    obtain ⟨piece, rest, hp, hr, hline, hrest⟩ := split_newline (List.mem_of_mem_take hmem)
    rw [hline, hrest]
    nth_rewrite 1 [hr]
    exact .newline hp
  · next hmem =>
    split
    · next hlen =>
      nth_rewrite 1 [← List.take_append_drop size r]
      refine .full hmem (fun hnil => ?_)
      have := congrArg List.length hnil
      rw [List.length_take, List.length_nil] at this
      omega
    · next hlen =>
      rw [List.take_of_length_le (by omega)] at hmem
      exact .eof hmem

def bufferSize : ℕ := 64 * 1024

/-- A reader that has the whole stream before it. -/
def SliceReader.whole : SliceReader where
  State := Text
  left := id
  readSlice := Pgfy.readSlice bufferSize
  sliced := readSlice_sliced (show 0 < bufferSize by decide)

/-- What is known of a tool by its diagnostics. -/
def readToolErrors (stream : Text) : ToolRun := (SliceReader.whole.readToolErrors stream).1

/-! ### Running a tool -/

/-- How waiting for a process ends. -/
inductive WaitResult where
  | success
  | exited (code : ℤ) (failed : code ≠ 0)
  | signaled (signal : String)
  /-- an error that is not the process's own -/
  | other

/-- What a process that is started does. -/
structure ToolProcess where
  started : Bool := true
  stderr : Text := []
  wait : WaitResult := .success
  /-- the time limit has passed, or the job was cancelled, by the end -/
  expired : Bool := false

/-- Separates a tool that ran and complained from one that never ran or was
    stopped. -/
def runTool (name : String) (p : ToolProcess) : ToolRun :=
  if !p.started then { counted := "", err := some (.message (name ++ " could not be started")) }
  else
    let run := readToolErrors p.stderr
    match p.wait with
    | .success => run
    | .signaled signal =>
      { run with err := some (.message
          (name ++ " was stopped before it finished (" ++ signal ++ ")")) }
    | .exited code _ =>
      if p.expired then
        { run with err := some (.message (name ++ " did not finish within its time limit")) }
      else { run with exit := code }
    | .other =>
      { run with err := some (.message (name ++ " failed: " ++ String.ofList run.lastLine)) }

/-! ### What is counted -/

/-- The lines of a stream as they are noted: cut at the limit, without the
    carriage returns at their end. -/
def stderrLines (stream : Text) : List Text :=
  (Text.split '\n' stream).map (fun line => trimNewlines (line.take lineLimit))

/-- The last line of those given that has a summary: its number, and the lines
    after it. -/
def lastSummary : List Text → Option (ℤ × List Text)
  | [] => none
  | line :: rest =>
    match lastSummary rest with
    | some found => some found
    | none => (summaryNumber line).map (fun n => (n, rest))

/-- How many lines are errors by their mark. -/
def errorLines (lines : List Text) : ℤ := lines.countP (fun line => errorMark <:+: line)

/-- The number in the last summary and the errors after it, or all errors if
    there is no summary: as a machine integer. -/
def tallied (lines : List Text) : ℤ :=
  match lastSummary lines with
  | some (n, after) => int64 (n + errorLines after)
  | none => int64 (errorLines lines)

/-! ### One line -/

/-- What a line takes of two parts is what it takes of both at once. -/
theorem take_room (limit : ℕ) (line a b : Text) :
    line ++ a.take (limit - line.length) ++
        b.take (limit - (line ++ a.take (limit - line.length)).length) =
      line ++ (a ++ b).take (limit - line.length) := by
  have hroom : b.take (limit - (line ++ a.take (limit - line.length)).length) =
      b.take (limit - line.length - a.length) := by
    rw [List.length_append, List.length_take]
    congr 1
    omega
  rw [hroom, List.take_append, List.append_assoc]

/-- What reading a line gives, from what was taken of it before: the line, whether
    the stream ended with it, and what is left. -/
inductive LineRead (limit : ℕ) (line : Text) : Text → Text → Bool → Text → Prop where
  | newline {piece rest : Text} (h : '\n' ∉ piece) :
      LineRead limit line (piece ++ '\n' :: rest)
        (trimNewlines (line ++ (piece ++ ['\n']).take (limit - line.length))) false rest
  | eof {piece : Text} (h : '\n' ∉ piece) :
      LineRead limit line piece
        (trimNewlines (line ++ piece.take (limit - line.length))) true []

/-- A slice without a newline belongs to the line that goes on after it. -/
theorem LineRead.of_full {limit : ℕ} {line chunk stream result rest : Text} {ended : Bool}
    (hchunk : '\n' ∉ chunk)
    (h : LineRead limit (line ++ chunk.take (limit - line.length)) stream result ended rest) :
    LineRead limit line (chunk ++ stream) result ended rest := by
  cases h with
  | newline hpiece =>
    rename_i piece
    have hboth : '\n' ∉ chunk ++ piece := by simp [hchunk, hpiece]
    have hline := @LineRead.newline limit line (chunk ++ piece) rest hboth
    rw [List.append_assoc, List.append_assoc] at hline
    rw [take_room]
    exact hline
  | eof hpiece =>
    have hboth : '\n' ∉ chunk ++ stream := by simp [hchunk, hpiece]
    rw [take_room]
    exact LineRead.eof hboth

namespace SliceReader

variable (b : SliceReader)

theorem readParts_spec (limit : ℕ) : ∀ (n : ℕ) (line : Text) (s : b.State),
    (b.left s).length < n →
      LineRead limit line (b.left s) (b.readParts limit n line s).1
        (b.readParts limit n line s).2.1 (b.left (b.readParts limit n line s).2.2) := by
  intro n
  induction n with
  | zero => intro line s hn; omega
  | succ n ih =>
    intro line s hn
    unfold readParts
    have hsliced := b.sliced s
    generalize b.readSlice s = slice at hsliced ⊢
    obtain ⟨chunk, ended, s'⟩ := slice
    simp only at hsliced ⊢
    have hnext := ih (line ++ chunk.take (limit - line.length)) s'
    generalize b.left s = stream at hsliced hn ⊢
    cases ended with
    | newline =>
      generalize b.left s' = rest at hsliced ⊢
      cases hsliced with
      | newline hpiece => exact .newline hpiece
    | full =>
      generalize hrest : b.left s' = rest at hsliced hnext
      cases hsliced with
      | full hchunk hsome =>
        have hlen : rest.length < n := by
          have := List.length_pos_of_ne_nil hsome
          rw [List.length_append] at hn
          omega
        exact (hnext hlen).of_full hchunk
    | eof =>
      generalize b.left s' = rest at hsliced ⊢
      cases hsliced with
      | eof hchunk => exact .eof hchunk

end SliceReader

/-- The newline that ends a line is trimmed, if the limit left room for it. -/
theorem trimNewlines_take_newline (limit : ℕ) (piece : Text) :
    trimNewlines ((piece ++ ['\n']).take limit) = trimNewlines (piece.take limit) := by
  rw [List.take_append]
  cases limit - piece.length with
  | zero => simp
  | succ k =>
    unfold trimNewlines
    rw [List.take_succ_cons, List.take_nil, List.rdropWhile_concat_pos _ _ _ (by decide)]

theorem append_newline_inj {p p' r r' : Text} (hp : '\n' ∉ p) (hp' : '\n' ∉ p')
    (h : p ++ '\n' :: r = p' ++ '\n' :: r') : p = p' ∧ r = r' := by
  have hsplit := congrArg (List.takeWhile (· ≠ '\n')) h
  have hall : ∀ {q : Text}, '\n' ∉ q → ∀ c ∈ q, decide (c ≠ '\n') = true :=
    fun hq c hc => decide_eq_true (fun heq => hq (heq ▸ hc))
  rw [List.takeWhile_append_of_pos (hall hp), List.takeWhile_append_of_pos (hall hp')] at hsplit
  obtain rfl : p = p' := by simpa using hsplit
  exact ⟨rfl, by simpa using h⟩

namespace SliceReader

variable (b : SliceReader)

theorem readBoundedLine_spec (limit : ℕ) (s : b.State) :
    LineRead limit [] (b.left s) (b.readBoundedLine limit s).1
      (b.readBoundedLine limit s).2.1 (b.left (b.readBoundedLine limit s).2.2) :=
  b.readParts_spec limit ((b.left s).length + 1) [] s (Nat.lt_succ_self _)

/-- The next line of a stream that has one, however it is sliced. -/
theorem readBoundedLine_newline (limit : ℕ) {s : b.State} {piece rest : Text}
    (hs : b.left s = piece ++ '\n' :: rest) (hp : '\n' ∉ piece) :
    (b.readBoundedLine limit s).1 = trimNewlines (piece.take limit) ∧
      (b.readBoundedLine limit s).2.1 = false ∧
      b.left (b.readBoundedLine limit s).2.2 = rest := by
  have h := b.readBoundedLine_spec limit s
  rw [hs] at h
  generalize hstream : piece ++ '\n' :: rest = stream at h
  generalize (b.readBoundedLine limit s).1 = line at h ⊢
  generalize (b.readBoundedLine limit s).2.1 = ended at h ⊢
  generalize b.left (b.readBoundedLine limit s).2.2 = left at h ⊢
  cases h with
  | eof hnone => exact absurd (by simp [← hstream]) hnone
  | newline hp' =>
    obtain ⟨rfl, rfl⟩ := append_newline_inj hp hp' hstream
    exact ⟨by simp [trimNewlines_take_newline], rfl, rfl⟩

/-- The last line of a stream. -/
theorem readBoundedLine_eof (limit : ℕ) {s : b.State} (hs : '\n' ∉ b.left s) :
    (b.readBoundedLine limit s).1 = trimNewlines ((b.left s).take limit) ∧
      (b.readBoundedLine limit s).2.1 = true ∧ b.left (b.readBoundedLine limit s).2.2 = [] := by
  have h := b.readBoundedLine_spec limit s
  generalize b.left s = stream at h hs ⊢
  generalize (b.readBoundedLine limit s).1 = line at h ⊢
  generalize (b.readBoundedLine limit s).2.1 = ended at h ⊢
  generalize b.left (b.readBoundedLine limit s).2.2 = left at h ⊢
  cases h with
  | newline hp' => exact absurd (by simp) hs
  | eof hnone => exact ⟨by simp, rfl, rfl⟩

end SliceReader

/-! ### The lines -/

theorem stderrLines_newline {piece : Text} (h : '\n' ∉ piece) (rest : Text) :
    stderrLines (piece ++ '\n' :: rest) =
      trimNewlines (piece.take lineLimit) :: stderrLines rest := by
  unfold stderrLines
  rw [Text.split_append h, List.map_cons]

theorem stderrLines_eof {piece : Text} (h : '\n' ∉ piece) :
    stderrLines piece = [trimNewlines (piece.take lineLimit)] := by
  unfold stderrLines
  rw [Text.split_of_not_mem h, List.map_cons, List.map_nil]

/-- A text has no newline, or is a first line and the rest. -/
theorem newline_cases (r : Text) :
    '\n' ∉ r ∨ ∃ piece rest, '\n' ∉ piece ∧ r = piece ++ '\n' :: rest := by
  by_cases h : '\n' ∈ r
  · obtain ⟨piece, rest, rfl, hp⟩ := List.eq_append_cons_of_mem h
    exact .inr ⟨piece, rest, hp, rfl⟩
  · exact .inl h

/-- The lines that are processed: the last piece is not, if nothing is left of it. -/
def noted (lines : List Text) : List Text :=
  if lines.getLast? = some [] then lines.dropLast else lines

theorem noted_cons (line : Text) {lines : List Text} (h : lines ≠ []) :
    noted (line :: lines) = line :: noted lines := by
  unfold noted
  rw [List.getLast?_cons_of_ne_nil h, List.dropLast_cons_of_ne_nil h]
  split <;> rfl

theorem stderrLines_ne_nil (stream : Text) : stderrLines stream ≠ [] := by
  obtain hr | ⟨piece, rest, hp, rfl⟩ := newline_cases stream
  · rw [stderrLines_eof hr]
    exact List.cons_ne_nil _ _
  · rw [stderrLines_newline hp]
    exact List.cons_ne_nil _ _

/-- The run, the lines and what is left of the stream, by the stream alone. -/
theorem SliceReader.readLines_spec (b : SliceReader) : ∀ (n : ℕ) (run : ToolRun) (s : b.State),
    (b.left s).length < n →
      (b.readLines n run s).1 = (noted (stderrLines (b.left s))).foldl ToolRun.note run ∧
        (b.readLines n run s).2.1 = noted (stderrLines (b.left s)) ∧
        b.left (b.readLines n run s).2.2 = [] := by
  intro n
  induction n with
  | zero => intro run s hn; omega
  | succ n ih =>
    intro run s hn
    unfold readLines
    obtain hr | ⟨piece, rest, hp, hstream⟩ := newline_cases (b.left s)
    · -- the last piece is dropped if nothing is left of it
      obtain ⟨hl, he, hs⟩ := b.readBoundedLine_eof lineLimit hr
      rw [stderrLines_eof hr, ← hl]
      by_cases hnil : (b.readBoundedLine lineLimit s).1 = []
      · simp [hnil, he, noted, hs]
      · simp [hnil, he, noted, hs]
    · obtain ⟨hl, he, hs⟩ := b.readBoundedLine_newline lineLimit hstream hp
      have hlen : (b.left (b.readBoundedLine lineLimit s).2.2).length < n := by
        rw [hstream, List.length_append, List.length_cons] at hn
        rw [hs]
        omega
      obtain ⟨hrun, hlines, hleft⟩ := ih (run.note (b.readBoundedLine lineLimit s).1) _ hlen
      rw [hstream, stderrLines_newline hp, noted_cons _ (stderrLines_ne_nil rest), ← hl, ← hs]
      simp only [he, Bool.false_eq_true, false_and, if_false]
      exact ⟨hrun, congrArg (_ :: ·) hlines, hleft⟩

/-! ### The count -/

/-- The count after one more line. -/
def tally (count : ℤ) (line : Text) : ℤ :=
  match summaryNumber line with
  | some n => n
  | none => if errorMark <:+: line then int64 (count + 1) else count

section
variable (run : ToolRun) (line : Text)

/-- What a line changes. How the tool ended is no matter of the diagnostics. -/
theorem ToolRun.note_spec : (run.note line).errors = tally run.errors line ∧
    (run.note line).err = run.err ∧ (run.note line).exit = run.exit ∧
    (run.note line).excerpt =
      run.excerpt ++ (line ++ ['\n']).take (4096 - run.excerpt.length) := by
  unfold ToolRun.note tally
  cases summaryNumber line <;> by_cases hb : trimSpaceBytes line ≠ [] <;>
    by_cases he : errorMark <:+: line <;> simp [hb, he]

end

/-- What the lines change. -/
theorem foldl_note (lines : List Text) : ∀ run : ToolRun, run.excerpt.length ≤ 4096 →
    (lines.foldl ToolRun.note run).errors = lines.foldl tally run.errors ∧
      (lines.foldl ToolRun.note run).err = run.err ∧
      (lines.foldl ToolRun.note run).exit = run.exit ∧
      (lines.foldl ToolRun.note run).excerpt.length ≤ 4096 := by
  induction lines with
  | nil => exact fun run h => ⟨rfl, rfl, rfl, h⟩
  | cons line rest ih =>
    intro run h
    obtain ⟨herrors, herr, hexit, hexcerpt⟩ := run.note_spec line
    have hlen : (run.note line).excerpt.length ≤ 4096 := by
      rw [hexcerpt, List.length_append, List.length_take]
      omega
    have hrest := ih (run.note line) hlen
    rw [herrors, herr, hexit] at hrest
    exact hrest

theorem tally_nil (count : ℤ) : tally count [] = count := by
  have hmark : ¬ errorMark <:+: [] := by
    rw [List.infix_nil]
    decide
  show (if errorMark <:+: [] then int64 (count + 1) else count) = count
  exact if_neg hmark

theorem int64_int64_add (a b : ℤ) : int64 (int64 a + b) = int64 (a + b) := by
  simp [int64]

theorem int64_of_nonneg {n : ℤ} (h : 0 ≤ n) (hn : n < 2 ^ 63) : int64 n = n := by
  unfold int64
  rw [Int.bmod_eq_of_le] <;> omega

theorem summaryNumber_bounds {line : Text} {n : ℤ} (h : summaryNumber line = some n) :
    0 ≤ n ∧ n < 2 ^ 63 := by
  unfold summaryNumber at h
  split at h
  · split at h
    · cases h
      omega
    · cases h
  · cases h

theorem errorLines_cons (line : Text) (lines : List Text) :
    errorLines (line :: lines) = errorLines lines + if errorMark <:+: line then 1 else 0 := by
  unfold errorLines
  rw [List.countP_cons]
  by_cases he : errorMark <:+: line <;> simp [he]

/-- The count over some lines, from a count so far: only what follows the last
    summary is added to it. -/
theorem foldl_tally (lines : List Text) : ∀ count : ℤ, int64 count = count →
    lines.foldl tally count = match lastSummary lines with
      | some (n, after) => int64 (n + errorLines after)
      | none => int64 (count + errorLines lines) := by
  induction lines with
  | nil => intro count hcount; simp [lastSummary, errorLines, hcount]
  | cons line rest ih =>
    intro count hcount
    rw [List.foldl_cons]
    unfold lastSummary
    cases hline : summaryNumber line with
    | some n =>
      obtain ⟨h0, hn⟩ := summaryNumber_bounds hline
      have htally : tally count line = n := by simp [tally, hline]
      rw [htally, ih n (int64_of_nonneg h0 hn)]
      cases lastSummary rest <;> rfl
    | none =>
      have htally : int64 (tally count line) = tally count line := by
        unfold tally
        rw [hline]
        by_cases he : errorMark <:+: line
        · simp [he, int64]
        · simp [he, hcount]
      rw [ih _ htally]
      cases lastSummary rest with
      | some found => rfl
      | none =>
        unfold tally
        rw [hline, errorLines_cons]
        by_cases he : errorMark <:+: line
        · simp only [he, if_true, Option.map_none]
          rw [int64_int64_add]
          congr 1
          omega
        · simp [he]

/-- A piece with nothing left of it counts for nothing. -/
theorem foldl_tally_noted (lines : List Text) (count : ℤ) :
    (noted lines).foldl tally count = lines.foldl tally count := by
  unfold noted
  split
  · rename_i hlast
    obtain ⟨init, rfl⟩ := List.getLast?_eq_some_iff.1 hlast
    rw [List.dropLast_concat, List.foldl_append, List.foldl_cons, List.foldl_nil, tally_nil]
  · rfl

theorem length_skipWords_le (words : List Text) : ∀ (n : ℕ) (s : Text),
    (skipWords words n s).length ≤ s.length := by
  intro n
  induction n with
  | zero => exact fun s => le_refl _
  | succ n ih =>
    intro s
    unfold skipWords
    split
    · exact (ih _).trans (by simp)
    · exact le_refl _

/-- What a reader reports, said of the lines of the stream. -/
theorem SliceReader.readToolErrors_spec (b : SliceReader) (s : b.State) :
    (b.readToolErrors s).1.errors = tallied (stderrLines (b.left s)) ∧
      (b.readToolErrors s).1.err = none ∧ (b.readToolErrors s).1.exit = 0 ∧
      (b.readToolErrors s).1.excerpt.length ≤ 4096 := by
  obtain ⟨hrun, -, -⟩ := b.readLines_spec ((b.left s).length + 1) {} s (Nat.lt_succ_self _)
  obtain ⟨herrors, herr, hexit, hlen⟩ :=
    foldl_note (noted (stderrLines (b.left s))) {} (Nat.zero_le _)
  rw [← hrun] at herrors herr hexit hlen
  refine ⟨?_, herr, hexit, ?_⟩
  · rw [foldl_tally_noted, foldl_tally _ 0 (by decide)] at herrors
    refine herrors.trans ?_
    simp [tallied]
  · unfold readToolErrors trimSpaceBytes
    rw [List.length_reverse]
    refine (length_skipWords_le _ _ _).trans ?_
    rw [List.length_reverse]
    exact (length_skipWords_le _ _ _).trans hlen

theorem readToolErrors_errors (stream : Text) :
    (readToolErrors stream).errors = tallied (stderrLines stream) :=
  (SliceReader.whole.readToolErrors_spec stream).1

end Pgfy
