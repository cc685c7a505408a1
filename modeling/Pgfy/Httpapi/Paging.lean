import Pgfy.Storage.Publication
import Pgfy.Store.Backups

/-! # Paging through the backups of a folder

    A folder is shown page by page, newest first. The next page is asked for
    with the timestamp of the last backup received, written as a folder name;
    the server turns it back into a second and looks for older backups. No bound
    is given by a second that is not positive, and so is any time up to the
    start of 1970.
-/

namespace Pgfy

open Calendar Storage

/-! ### The handler -/

/-- `strconv.Atoi`: a decimal number with an optional sign. A number too large
    for the machine is refused there, and by every caller's bounds here. -/
def Text.atoi (s : Text) : Option ℤ :=
  let digits (ds : Text) : Option ℕ :=
    if ds ≠ [] ∧ ds.all Char.isDigit then some (Text.number ds) else none
  match s with
  | '-' :: ds => (digits ds).map (fun n => -(n : ℤ))
  | '+' :: ds => (digits ds).map (fun n => (n : ℤ))
  | ds => (digits ds).map (fun n => (n : ℤ))

/-- A fraction of a second, which `time.Parse` takes after the seconds without
    being asked to. -/
def secondFraction : Text → Bool
  | c :: d :: ds => (c = '.' || c = ',') && d.isDigit && ds.all Char.isDigit
  | _ => false

/-- `time.Parse(storage.TimeLayout, value)`, as a Unix second. -/
def parseTimestamp (value : Text) : Option ℤ :=
  if directoryName (value.take 15 ++ ['Z']) ∧ value.getLast? = some 'Z' ∧
      (value.length = 16 ∨ secondFraction ((value.drop 15).dropLast) = true) then parseTime value
  else none

/-- `BucketBackups`: a page of a folder's complete backups, and whether there are
    more. -/
def Database.bucketPage (target dbName : Text) (before : ℤ) (limit : ℕ) (db : Database) :
    List BucketBackup × Bool :=
  let before := if before ≤ 0 then 2 ^ 62 - 1 else before
  let rows := (newestFirst ((db.bucketBackups.filter (fun r => r.1 = target ∧
    r.2.dbName = dbName ∧ r.2.state = .complete ∧ r.2.takenAt < before)).map (·.2))).take
    (limit + 1)
  if limit < rows.length then (rows.take limit, true) else (rows, false)

/-- An answer that is not the one asked for. -/
structure Refusal where
  status : ℕ
  code : String
  message : String
deriving DecidableEq

structure Page where
  dbName : Text
  backups : List BucketBackup
  hasMore : Bool
deriving DecidableEq

def discoveryPage : ℕ := 20

def pageBefore (value : Text) : Except Refusal ℤ :=
  if value = [] then .ok 0
  else match parseTimestamp value with
    | some at_ => .ok at_
    | none => .error ⟨400, "invalid_request", "Provide a backup timestamp to page from."⟩

def pageLimit (value : Text) : Except Refusal ℕ :=
  if value = [] then .ok discoveryPage
  else match Text.atoi value with
    | some n => if n < 1 ∨ 100 < n then
        .error ⟨400, "invalid_request", "Ask for between 1 and 100 backups."⟩
      else .ok n.toNat
    | none => .error ⟨400, "invalid_request", "Ask for between 1 and 100 backups."⟩

/-- The page of a folder; a parameter that is not given is empty. -/
def pageDatabase (db : Database) (target name before limit : Text) : Except Refusal Page :=
  if !validDatabaseSegment name then
    .error ⟨400, "invalid_request", "That is not a database folder written by this application."⟩
  else do
    let before ← pageBefore before
    let limit ← pageLimit limit
    let page := db.bucketPage target name before limit
    pure { dbName := name, backups := page.1, hasMore := page.2 }

/-! ### The client -/

/-- The bound to go on with: the timestamp of the last backup received. -/
def cursor (received : List BucketBackup) : Text :=
  match received.getLast? with
  | some b => formatTime (ofUnix b.takenAt)
  | none => []

/-- Asks for page after page until there is no more, for at most a number of
    requests. -/
def collect (db : Database) (target name limit : Text) : ℕ → Text → Option (List BucketBackup)
  | 0, _ => none
  | n + 1, before =>
    match pageDatabase db target name before limit with
    | .error _ => none
    | .ok page =>
      if page.hasMore then
        (collect db target name limit n (cursor page.backups)).map (page.backups ++ ·)
      else some page.backups

/-- The complete backups recorded for a folder. -/
def Database.folderBackups (target dbName : Text) (db : Database) : List BucketBackup :=
  (db.bucketBackups.filter (fun r => r.1 = target ∧ r.2.dbName = dbName ∧
    r.2.state = .complete)).map (·.2)

/-- The same, newest first. -/
def Database.newestBackups (target dbName : Text) (db : Database) : List BucketBackup :=
  newestFirst (db.folderBackups target dbName)

/-- Each is of a time a folder name is read as, and no two are of one time. -/
structure Dated (rows : List BucketBackup) : Prop where
  times : (rows.map BucketBackup.takenAt).Nodup
  parsed : ∀ b ∈ rows, ∃ name, parseDirectorySegment name = (b.takenAt, true)

/-! ### Rows in order -/

/-- Newest first, no two of one time. -/
def Descending (bs : List BucketBackup) : Prop := bs.Pairwise (fun a b => b.takenAt < a.takenAt)

theorem Descending.asymm (a b : BucketBackup) (h : b.takenAt < a.takenAt)
    (h' : a.takenAt < b.takenAt) : a = b :=
  absurd h (lt_asymm h')

theorem newestFirst_descending {rows : List BucketBackup}
    (hn : (rows.map BucketBackup.takenAt).Nodup) : Descending (newestFirst rows) := by
  have hsorted := List.pairwise_insertionSort BucketBackup.Before rows
  have htimes : ((newestFirst rows).map BucketBackup.takenAt).Nodup :=
    ((List.perm_insertionSort _ _).map _).nodup_iff.mpr hn
  refine (hsorted.and (List.pairwise_map.mp htimes)).imp (fun {a b} h => ?_)
  rcases h.1 with hlt | ⟨heq, -⟩
  · exact hlt
  · exact absurd heq h.2

theorem newestFirst_filter {rows : List BucketBackup}
    (hn : (rows.map BucketBackup.takenAt).Nodup) (q : BucketBackup → Bool) :
    newestFirst (rows.filter q) = (newestFirst rows).filter q := by
  have hsub : ((rows.filter q).map BucketBackup.takenAt).Nodup :=
    hn.sublist ((List.filter_sublist (p := q) (l := rows)).map _)
  refine List.Perm.eq_of_pairwise (fun a b _ _ h h' => Descending.asymm a b h h')
    (newestFirst_descending hsub) ((newestFirst_descending hn).filter q) ?_
  exact (List.perm_insertionSort _ _).trans ((List.perm_insertionSort _ _).symm.filter q)

/-- What is older than a backup follows it. -/
theorem Descending.filter_older {xs ys : List BucketBackup} {b : BucketBackup}
    (h : Descending (xs ++ b :: ys)) :
    (xs ++ b :: ys).filter (fun r => r.takenAt < b.takenAt) = ys := by
  obtain ⟨-, hb, hxs⟩ := List.pairwise_append.mp h
  have hnone : xs.filter (fun r => r.takenAt < b.takenAt) = [] := by
    refine List.filter_eq_nil_iff.mpr (fun r hr => ?_)
    have hlt := hxs r hr b List.mem_cons_self
    simp only [decide_eq_true_eq]
    omega
  have hall : ys.filter (fun r => r.takenAt < b.takenAt) = ys := by
    refine List.filter_eq_self.mpr (fun r hr => ?_)
    simpa using List.rel_of_pairwise_cons hb hr
  rw [List.filter_append, hnone, List.nil_append, List.filter_cons_of_neg (by simp), hall]

/-- The backups after the start of 1970. -/
def modern (rows : List BucketBackup) : ℕ := rows.countP (fun b => 0 < b.takenAt)

theorem Descending.modern_iff {xs ys : List BucketBackup} {b : BucketBackup}
    (h : Descending (xs ++ b :: ys)) :
    xs.length + 1 ≤ modern (xs ++ b :: ys) ↔ 0 < b.takenAt := by
  obtain ⟨-, hb, hxs⟩ := List.pairwise_append.mp h
  unfold modern
  rw [List.countP_append]
  by_cases hpos : 0 < b.takenAt
  · have hall : xs.countP (fun b => 0 < b.takenAt) = xs.length := by
      refine List.countP_eq_length.mpr (fun r hr => ?_)
      have hlt := hxs r hr b List.mem_cons_self
      simp only [decide_eq_true_eq]
      omega
    rw [List.countP_cons_of_pos (by simpa using hpos), hall]
    omega
  · have hnone : ys.countP (fun b => 0 < b.takenAt) = 0 := by
      refine List.countP_eq_zero.mpr (fun r hr => ?_)
      have hlt := List.rel_of_pairwise_cons hb hr
      simp only [decide_eq_true_eq]
      omega
    have hle := List.countP_le_length (p := fun b : BucketBackup => 0 < b.takenAt) (l := xs)
    rw [List.countP_cons_of_neg (by simpa using hpos), hnone]
    omega

/-! ### One page -/

/-- A time read off a folder name is before the bound that stands for none. -/
theorem lt_noBound {name : Text} {at_ : ℤ} (h : parseDirectorySegment name = (at_, true)) :
    at_ < 2 ^ 62 - 1 := by
  obtain ⟨-, hyear⟩ := fourDigitYear_of_parse h
  rw [yearAt, unix_ofUnix] at hyear
  obtain ⟨-, hlt⟩ := yearOf_spec (at_ / 86400 + epochDay)
  rw [← daysBeforeYear_succ] at hlt
  have hmono := daysBeforeYear_mono
    (show yearOf (at_ / 86400 + epochDay) + 1 ≤ 10000 by
      simp only [Date.ofDays] at hyear
      omega)
  have hdays : daysBeforeYear 10000 = 3652059 := by decide
  simp only [epochDay] at hlt hmono
  omega

/-- A shape of a page: one row more than asked for is read. -/
theorem page_eq (zs : List BucketBackup) (limit : ℕ) :
    (if limit < (zs.take (limit + 1)).length then ((zs.take (limit + 1)).take limit, true)
      else (zs.take (limit + 1), false)) = (zs.take limit, decide (limit < zs.length)) := by
  rw [List.length_take]
  by_cases h : limit < zs.length
  · rw [if_pos (by omega), List.take_take, min_eq_left (Nat.le_succ limit), decide_eq_true h]
  · rw [if_neg (by omega), decide_eq_false h, List.take_of_length_le (by omega),
      List.take_of_length_le (by omega)]

section Folder

variable {db : Database} {target name : Text} (hdated : Dated (db.folderBackups target name))
include hdated

theorem bucketPage_eq (before : ℤ) (limit : ℕ) :
    db.bucketPage target name before limit =
      (((db.newestBackups target name).filter (fun b => b.takenAt <
          if before ≤ 0 then 2 ^ 62 - 1 else before)).take limit,
        decide (limit < ((db.newestBackups target name).filter (fun b => b.takenAt <
          if before ≤ 0 then 2 ^ 62 - 1 else before)).length)) := by
  rw [Database.newestBackups, ← newestFirst_filter hdated.times, ← page_eq]
  unfold Database.bucketPage Database.folderBackups
  rw [List.filter_map, List.filter_filter]
  have hpred : ∀ r : Text × BucketBackup, (decide (r.1 = target ∧ r.2.dbName = name ∧
      r.2.state = .complete ∧ r.2.takenAt < if before ≤ 0 then 2 ^ 62 - 1 else before)) =
      (((fun b : BucketBackup => decide (b.takenAt < if before ≤ 0 then 2 ^ 62 - 1 else before)) ∘
        fun x => x.2) r && decide (r.1 = target ∧ r.2.dbName = name ∧ r.2.state = .complete)) := by
    intro r
    rw [Function.comp_apply, ← Bool.decide_and]
    exact decide_eq_decide.mpr (by tauto)
  simp only [hpred]

/-- Without a bound, or with one that is taken for none, paging starts with the
    newest. -/
theorem bucketPage_first {before : ℤ} (hbefore : before ≤ 0) (limit : ℕ) :
    db.bucketPage target name before limit =
      ((db.newestBackups target name).take limit,
        decide (limit < (db.newestBackups target name).length)) := by
  have hall : (db.newestBackups target name).filter (fun b => b.takenAt <
      if before ≤ 0 then 2 ^ 62 - 1 else before) = db.newestBackups target name := by
    refine List.filter_eq_self.mpr (fun b hb => ?_)
    obtain ⟨segment, hparse⟩ := hdated.parsed b (mem_newestFirst.mp hb)
    rw [if_pos hbefore]
    exact decide_eq_true (lt_noBound hparse)
  rw [bucketPage_eq hdated, hall]

theorem bucketPage_after {xs ys : List BucketBackup} {b : BucketBackup}
    (hrows : db.newestBackups target name = xs ++ b :: ys) (hpos : 0 < b.takenAt)
    (limit : ℕ) :
    db.bucketPage target name b.takenAt limit = (ys.take limit, decide (limit < ys.length)) := by
  have hdesc : Descending (xs ++ b :: ys) := hrows ▸ newestFirst_descending hdated.times
  rw [bucketPage_eq hdated, hrows, if_neg (by omega), hdesc.filter_older]

end Folder

/-! ### The parameters -/

/-- A folder name is a timestamp for the handler too. -/
theorem parseTimestamp_of_directoryName {value : Text} (h : directoryName value = true) :
    parseTimestamp value = parseTime value := by
  have hfull := h
  unfold directoryName at h
  split at h
  · next y₁ y₂ y₃ y₄ m₁ m₂ d₁ d₂ t h₁ h₂ n₁ n₂ s₁ s₂ z =>
    simp only [Bool.and_eq_true, decide_eq_true_eq] at h
    obtain ⟨-, rfl⟩ := h
    unfold parseTimestamp
    rw [if_pos ⟨hfull, rfl, Or.inl rfl⟩]
  · cases h

theorem pageBefore_cursor {name : Text} {at_ : ℤ} (h : parseDirectorySegment name = (at_, true)) :
    pageBefore (formatTime (ofUnix at_)) = .ok at_ := by
  have hyear := fourDigitYear_of_parse h
  have hshape := (formatTime_fields hyear).1
  have hparse := parseDirectorySegment_formatTime hyear
  rw [unix_ofUnix] at hparse
  have hne : formatTime (ofUnix at_) ≠ [] := (segment_formatTime hyear).nonempty
  have htime : parseTime (formatTime (ofUnix at_)) = some at_ := by
    rw [parseDirectorySegment, if_pos hshape] at hparse
    cases htime : parseTime (formatTime (ofUnix at_)) with
    | none =>
      rw [htime] at hparse
      cases hparse
    | some at' =>
      rw [htime] at hparse
      exact congrArg some (congrArg Prod.fst hparse)
  rw [pageBefore, if_neg hne, parseTimestamp_of_directoryName hshape, htime]

/-- Every limit the handler allows can be asked for. -/
theorem pageLimit_padded {limit : ℕ} (h : 1 ≤ limit) (h' : limit ≤ 100) :
    pageLimit (Text.padded 1 limit) = .ok limit := by
  have hall : ∀ n : Fin 101, 1 ≤ n.val → pageLimit (Text.padded 1 n.val) = .ok n.val := by
    decide +kernel
  exact hall ⟨limit, by omega⟩ h

/-! ### Page after page -/

theorem exists_split {bs : List BucketBackup} {n : ℕ} (h : n < bs.length) :
    ∃ xs b ys, bs = xs ++ b :: ys ∧ xs.length = n := by
  refine ⟨bs.take n, bs[n], bs.drop (n + 1), ?_, by rw [List.length_take]; omega⟩
  rw [← List.drop_eq_getElem_cons h, List.take_append_drop]

section Paging

variable {db : Database} {target name : Text} {limit : ℕ}

/-- The answer with a page of some rows. -/
def pageOf (name : Text) (rows : List BucketBackup) (limit : ℕ) : Page :=
  { dbName := name, backups := rows.take limit, hasMore := decide (limit < rows.length) }

variable (hname : validDatabaseSegment name = true)
  (hdated : Dated (db.folderBackups target name)) (hlimit : 1 ≤ limit) (hlimit' : limit ≤ 100)
include hname hdated hlimit hlimit'

/-- Asking before the last of the first backups, as many as whole pages have. -/
theorem pageDatabase_cursor {k : ℕ}
    (hk : k = 0 ∨ k * limit < (db.newestBackups target name).length) :
    pageDatabase db target name
        (cursor ((db.newestBackups target name).take (k * limit)))
        (Text.padded 1 limit) =
      .ok (pageOf name (if k * limit ≤ modern (db.newestBackups target name)
        then (db.newestBackups target name).drop (k * limit)
        else db.newestBackups target name) limit) := by
  have hdesc : Descending (db.newestBackups target name) :=
    newestFirst_descending hdated.times
  have hanswer : ∀ {before : Text} {b : ℤ}, pageBefore before = .ok b →
      pageDatabase db target name before (Text.padded 1 limit) =
        .ok { dbName := name, backups := (db.bucketPage target name b limit).1,
              hasMore := (db.bucketPage target name b limit).2 } := by
    intro before b hb
    unfold pageDatabase
    rw [hname, hb, pageLimit_padded hlimit hlimit']
    rfl
  rcases Nat.eq_zero_or_pos k with rfl | hpos
  · rw [Nat.zero_mul, if_pos (Nat.zero_le _)]
    have hfirst : cursor ((db.newestBackups target name).take 0) = [] := rfl
    rw [hfirst, hanswer (b := 0) rfl, bucketPage_first hdated le_rfl]
    rfl
  · -- the last backup received, with what came before and what is still to come
    have hlt := hk.resolve_left (by omega)
    have hprod : 1 ≤ k * limit := Nat.mul_pos hpos hlimit
    obtain ⟨xs, b, ys, hrows, hbefore⟩ := exists_split
      (show k * limit - 1 < (db.newestBackups target name).length by omega)
    have hlen : xs.length + 1 = k * limit := by omega
    have hmem : b ∈ db.folderBackups target name := by
      rw [← mem_newestFirst, ← Database.newestBackups, hrows]
      simp
    obtain ⟨segment, hparse⟩ := hdated.parsed b hmem
    have hcursor : cursor ((db.newestBackups target name).take (k * limit)) =
        formatTime (ofUnix b.takenAt) := by
      have htake : (db.newestBackups target name).take (k * limit) = xs ++ [b] := by
        rw [hrows, ← hlen, List.take_length_add_append]
        rfl
      rw [cursor, htake, List.getLast?_concat]
    have hdrop : (db.newestBackups target name).drop (k * limit) = ys := by
      rw [hrows, ← hlen, List.drop_length_add_append]
      rfl
    have hmodern := (hrows ▸ hdesc : Descending (xs ++ b :: ys)).modern_iff
    rw [← hrows, hlen] at hmodern
    rw [hcursor, hanswer (pageBefore_cursor hparse)]
    by_cases hb : 0 < b.takenAt
    · rw [if_pos (hmodern.mpr hb), bucketPage_after hdated hrows hb, hdrop]
      rfl
    · rw [if_neg (fun h => hb (hmodern.mp h)), bucketPage_first hdated (by omega)]
      rfl

omit hname hdated hlimit' in
/-- The cursor after a page is the one of all that has been received. -/
theorem cursor_pageOf {bs : List BucketBackup} {k : ℕ} (hk : k * limit < bs.length) :
    cursor ((bs.drop (k * limit)).take limit) = cursor (bs.take ((k + 1) * limit)) := by
  have hsplit : bs.take ((k + 1) * limit) =
      bs.take (k * limit) ++ (bs.drop (k * limit)).take limit := by
    rw [Nat.succ_mul, List.take_add]
  have hne : (bs.drop (k * limit)).take limit ≠ [] := by
    rw [Ne, ← List.length_eq_zero_iff, List.length_take, List.length_drop]
    omega
  rw [cursor, cursor, hsplit, List.getLast?_append_of_ne_nil _ hne]

/-- As long as the bounds are after the start of 1970, each request goes on
    where the last one stopped, and the last backups end it. -/
theorem collect_eq (hfits : (db.newestBackups target name).length ≤
      (modern (db.newestBackups target name) / limit + 1) * limit) {n k : ℕ}
    (hk : k = 0 ∨ k * limit < (db.newestBackups target name).length)
    (hn : (db.newestBackups target name).length < n + k * limit) :
    collect db target name (Text.padded 1 limit) n
        (cursor ((db.newestBackups target name).take (k * limit))) =
      some ((db.newestBackups target name).drop (k * limit)) := by
  induction n generalizing k with
  | zero =>
    rcases hk with rfl | hlt
    · rw [Nat.zero_mul] at hn
      omega
    · omega
  | succ n ih =>
    have hbound : k * limit ≤ modern (db.newestBackups target name) := by
      rcases hk with rfl | hlt
      · omega
      · have hlt' : k < modern (db.newestBackups target name) / limit + 1 :=
          lt_of_mul_lt_mul_right (hlt.trans_le hfits) (Nat.zero_le limit)
        calc k * limit ≤ modern (db.newestBackups target name) / limit * limit :=
              Nat.mul_le_mul_right limit (by omega)
          _ ≤ modern (db.newestBackups target name) := Nat.div_mul_le_self _ _
    rw [collect, pageDatabase_cursor hname hdated hlimit hlimit' hk, if_pos hbound]
    by_cases hmore : limit < ((db.newestBackups target name).drop (k * limit)).length
    · have hlt : (k + 1) * limit < (db.newestBackups target name).length := by
        rw [List.length_drop] at hmore
        rw [Nat.succ_mul]
        omega
      have hnext := ih (k := k + 1) (Or.inr hlt) (by rw [Nat.succ_mul]; omega)
      simp only [pageOf, decide_eq_true hmore, if_true]
      rw [cursor_pageOf hlimit (by rw [Nat.succ_mul] at hlt; omega), hnext, Nat.succ_mul,
        ← List.drop_drop]
      exact congrArg some (List.take_append_drop _ _)
    · simp only [pageOf, decide_eq_false hmore]
      exact congrArg some (List.take_of_length_le (by omega))

/-- Otherwise a bound that is taken for none starts from the newest again, and
    no number of requests ends it. -/
theorem collect_eq_none (hlong : (modern (db.newestBackups target name) / limit + 1) * limit <
      (db.newestBackups target name).length) (n : ℕ) {k : ℕ}
    (hk : k ≤ modern (db.newestBackups target name) / limit + 1) :
    collect db target name (Text.padded 1 limit) n
      (cursor ((db.newestBackups target name).take (k * limit))) = none := by
  have hlength : ∀ {j : ℕ}, j ≤ modern (db.newestBackups target name) / limit + 1 →
      j * limit < (db.newestBackups target name).length :=
    fun hj => (Nat.mul_le_mul_right limit hj).trans_lt hlong
  induction n generalizing k with
  | zero => rfl
  | succ n ih =>
    rw [collect, pageDatabase_cursor hname hdated hlimit hlimit' (Or.inr (hlength hk))]
    by_cases hbound : k * limit ≤ modern (db.newestBackups target name)
    · have hk' : k + 1 ≤ modern (db.newestBackups target name) / limit + 1 :=
        Nat.succ_le_succ ((Nat.le_div_iff_mul_le hlimit).mpr hbound)
      have hlt := hlength hk'
      have hmore : limit < ((db.newestBackups target name).drop (k * limit)).length := by
        rw [List.length_drop]
        rw [Nat.succ_mul] at hlt
        omega
      simp only [pageOf, if_pos hbound, decide_eq_true hmore, if_true]
      rw [cursor_pageOf hlimit (hlength hk), ih hk']
      rfl
    · have hlt := hlength (j := 1) (Nat.le_add_left _ _)
      rw [Nat.one_mul] at hlt
      simp only [pageOf, if_neg hbound, decide_eq_true hlt, if_true]
      have hfirst := ih (k := 1) (Nat.le_add_left _ _)
      rw [Nat.one_mul] at hfirst
      rw [hfirst]
      rfl

/-- Paging through a folder ends with every complete backup exactly once, newest
    first, exactly if the page on which the backups after the start of 1970 end
    has room for all the older ones. -/
theorem paging_complete_iff :
    (∃ n bs, collect db target name (Text.padded 1 limit) n [] = some bs ∧
        bs.Perm (db.folderBackups target name) ∧ Descending bs) ↔
      (db.folderBackups target name).length ≤
        (modern (db.folderBackups target name) / limit + 1) * limit := by
  have hperm : (db.newestBackups target name).Perm (db.folderBackups target name) :=
    List.perm_insertionSort _ _
  have hcount : modern (db.folderBackups target name) = modern (db.newestBackups target name) :=
    (hperm.countP_eq _).symm
  have hstart : cursor ((db.newestBackups target name).take (0 * limit)) = [] := by
    rw [Nat.zero_mul]
    rfl
  rw [hcount, ← hperm.length_eq]
  constructor
  · rintro ⟨n, bs, hcollect, -, -⟩
    by_contra hlong
    have hnone := collect_eq_none hname hdated hlimit hlimit' (not_le.mp hlong) n
      (k := 0) (Nat.zero_le _)
    rw [hstart, hcollect] at hnone
    cases hnone
  · intro hfits
    have hall := collect_eq hname hdated hlimit hlimit' hfits
      (n := (db.newestBackups target name).length + 1) (k := 0) (Or.inl rfl) (by omega)
    rw [hstart, Nat.zero_mul, List.drop_zero] at hall
    exact ⟨_, _, hall, hperm, newestFirst_descending hdated.times⟩

end Paging

/-! ### Two folders -/

def shopTarget : Text := "s".toList

def shopName : Text := "app_0123456789ab".toList

/-- A complete backup of a time. -/
def shopBackup (key : String) (at_ : ℤ) : Text × BucketBackup :=
  (shopTarget, { manifestKey := key.toList, archiveKey := [], dbName := shopName, takenAt := at_,
                 state := .complete })

/-- Three backups of 2026. -/
def shopDatabase : Database :=
  { bucketBackups := [shopBackup "a" 1767225600, shopBackup "b" 1767312000,
      shopBackup "c" 1767398400] }

theorem shopDatabase_dated : Dated (shopDatabase.folderBackups shopTarget shopName) := by
  refine ⟨by decide +kernel, ?_⟩
  have hparsed : ∀ b ∈ shopDatabase.folderBackups shopTarget shopName, ∃ name ∈
      ["20260101T000000Z".toList, "20260102T000000Z".toList, "20260103T000000Z".toList],
      parseDirectorySegment name = (b.takenAt, true) := by decide +kernel
  intro b hb
  obtain ⟨name, -, hname⟩ := hparsed b hb
  exact ⟨name, hname⟩

theorem paging_complete_shop :
    ∃ n bs, collect shopDatabase shopTarget shopName (Text.padded 1 2) n [] = some bs ∧
      bs.Perm (shopDatabase.folderBackups shopTarget shopName) ∧ Descending bs :=
  (paging_complete_iff (by decide +kernel) shopDatabase_dated (by decide) (by decide)).mpr
    (by decide +kernel)

/-- Two backups, the newer one of the last second of 1969. -/
def oldDatabase : Database :=
  { bucketBackups := [shopBackup "a" (-1), shopBackup "b" (-86400)] }

theorem oldDatabase_dated : Dated (oldDatabase.folderBackups shopTarget shopName) := by
  refine ⟨by decide +kernel, ?_⟩
  have hparsed : ∀ b ∈ oldDatabase.folderBackups shopTarget shopName, ∃ name ∈
      ["19691231T235959Z".toList, "19691231T000000Z".toList],
      parseDirectorySegment name = (b.takenAt, true) := by decide +kernel
  intro b hb
  obtain ⟨name, -, hname⟩ := hparsed b hb
  exact ⟨name, hname⟩

/-- Paged one by one, they never end: the second request gets the first page
    again. -/
theorem paging_never_ends :
    validDatabaseSegment shopName = true ∧ Dated (oldDatabase.folderBackups shopTarget shopName) ∧
      ∀ n, collect oldDatabase shopTarget shopName (Text.padded 1 1) n [] = none := by
  have hname : validDatabaseSegment shopName = true := by decide +kernel
  refine ⟨hname, oldDatabase_dated, fun n => ?_⟩
  exact collect_eq_none hname oldDatabase_dated (by decide) (by decide) (by decide +kernel) n
    (k := 0) (Nat.zero_le _)

end Pgfy
