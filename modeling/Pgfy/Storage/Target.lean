import Pgfy.Framework.NetipText
import Pgfy.Storage.Listing

/-! # The identity of a store

    What is known of a bucket is kept under `Target`, a hash of the endpoint,
    the bucket and the folder as they are written, with `|` between them. The
    client takes the endpoint apart and cleans the folder. Here the two are
    compared for everything `Validate` accepts: when settings with one target
    are of one store, and the other way round.
-/

namespace Pgfy

namespace Storage

/-! ### Validation -/

/-- What is submitted as storage settings. -/
structure Submitted where
  endpoint : Text
  bucket : Text
  folder : Text
  accessKey : Text
  secretKey : Text
  privateEndpoint : Bool := false
  /-- nothing if it is none of the known ones -/
  bucketProtection : Option Protection
deriving DecidableEq

/-- What is left to others in reading an endpoint: which characters and escapes
    `net/url` allows in a host and in user information, and the look-up of a private
    host. -/
structure Net where
  acceptsHost : Text → Bool
  acceptsUser : Text → Bool
  privateHost : List UInt8 → Except Err Unit

/-- An endpoint taken apart. The host is in bytes, its escapes decoded. -/
structure Url where
  scheme : Text
  host : List UInt8
  path : Text
deriving DecidableEq

/-- What comes before a character, or all. -/
def beforeFirst (c : Char) (s : Text) : Text := s.takeWhile (· ≠ c)

/-- What comes after the first such character. -/
def afterFirst (c : Char) (s : Text) : Text := (s.dropWhile (· ≠ c)).drop 1

/-- Every `%` is followed by two hexadecimal digits. -/
def validEscapes : Text → Bool
  | [] => true
  | c :: rest =>
    if c = '%' then (rest.take 2).length = 2 && (rest.take 2).all Netip.isHex && validEscapes rest
    else validEscapes rest

/-- `unescape`: an escape is a byte, any other character those UTF-8 has for it. -/
def unescape : Text → Option (List UInt8)
  | [] => some []
  | '%' :: a :: b :: rest => do
    let high ← Netip.hexValue a
    let low ← Netip.hexValue b
    let bytes ← unescape rest
    pure (UInt8.ofNat (high * 16 + low) :: bytes)
  | c :: rest => if c = '%' then none else (unescape rest).map (String.utf8EncodeChar c ++ ·)

def isLetter (c : Char) : Bool := ('a' ≤ c && c ≤ 'z') || ('A' ≤ c && c ≤ 'Z')

/-- A scheme: a letter, then letters, digits, `+`, `-` or `.`. -/
def validScheme : Text → Bool
  | [] => false
  | c :: rest => isLetter c &&
      rest.all (fun d => isLetter d || ('0' ≤ d && d ≤ '9') || d = '+' || d = '-' || d = '.')

/-- The part of an authority after user information. -/
def hostOf (authority : Text) : Text := authority.rtakeWhile (· ≠ '@')

/-- The part before it, with its `@`. -/
def userOf (authority : Text) : Text := authority.rdropWhile (· ≠ '@')

/-- The part of `url.Parse` after the scheme. -/
def parseAuthority (net : Net) (scheme rest : Text) : Option Url :=
  if rest.take 2 ≠ ['/', '/'] then
    -- an opaque or a relative URL: there is no host
    some { scheme := scheme, host := [], path := rest }
  else
    let authority := beforeFirst '/' (rest.drop 2)
    let path := (rest.drop 2).dropWhile (· ≠ '/')
    if !net.acceptsHost (hostOf authority) || !net.acceptsUser (userOf authority) ||
        !validEscapes path then none
    else (unescape (hostOf authority)).map (fun host =>
      { scheme := scheme, host := host, path := path })

/-- `url.Parse`. -/
def parseUrl (net : Net) (raw : Text) : Option Url :=
  let url := beforeFirst '#' raw
  if url.any (fun c => c.toNat < 0x20 || c.toNat = 0x7f) || !validEscapes (afterFirst '#' raw)
  then none
  else if ':' ∈ url ∧ validScheme (beforeFirst ':' url) = true then
    parseAuthority net ((beforeFirst ':' url).map Char.toLower)
      (beforeFirst '?' (afterFirst ':' url))
  else if url.head? = some ':' then none
  else parseAuthority net [] (beforeFirst '?' url)

def endpointRefused : Err := .message
  ("endpoint must be an https:// URL without a path, for example " ++
    "https://s3.us-east-1.amazonaws.com")

def Submitted.validateEndpoint (net : Net) (s : Submitted) : Except Err Unit :=
  match parseUrl net s.endpoint with
  | none => .error endpointRefused
  | some u =>
    if (u.scheme ≠ "https".toList ∧ u.scheme ≠ "http".toList) ∨ u.host = [] ∨
        (u.path ≠ [] ∧ u.path ≠ ['/']) then .error endpointRefused
    else if u.scheme ≠ "https".toList then
      if !s.privateEndpoint then .error (.message
        "the endpoint must use https:// unless it is a private endpoint on this network")
      else net.privateHost u.host
    else .ok ()

def Submitted.validate (net : Net) (s : Submitted) : Except Err Unit := do
  s.validateEndpoint net
  if s.bucketProtection = none then
    .error (.message "choose how this bucket is protected against deletion")
  else if s.bucket = [] ∨ s.bucket.any (fun c => c = '/' || c = ' ') then
    .error (.message "bucket name is required")
  else if s.accessKey = [] ∨ s.secretKey = [] then
    .error (.message "access key and secret key are required")
  else if s.folder.head? = some '/' ∨ ['.', '.'] <:+: s.folder then
    .error (.message "prefix must be a relative path such as pgfy/production")
  else .ok ()

/-- What is used of the settings once they are accepted. -/
def Submitted.settings (s : Submitted) : Settings :=
  { endpoint := s.endpoint, bucket := s.bucket, folder := s.folder,
    bucketProtection := s.bucketProtection.getD .versioning }

/-! ### Identities -/

/-- How letters are made lower-case: letters of ASCII as usual, and no other
    character becomes one of those an endpoint is taken apart at. -/
structure Folding where
  lower : Char → Char
  ascii : ∀ c : Char, c.toNat < 128 → lower c = c.toLower
  keeps : ∀ c d : Char, d ∈ ['|', ':', '/', '?', '#', '@', '%'] → (lower c = d ↔ c = d)

/-- Two hosts are the same apart from case: they are made of the same bytes, and of
    characters that are the same in lower-case. -/
inductive SameHost (fold : Folding) : List UInt8 → List UInt8 → Prop
  | nil : SameHost fold [] []
  | byte (b : UInt8) {x y : List UInt8} (h : SameHost fold x y) :
      SameHost fold (b :: x) (b :: y)
  | character {c d : Char} (hcd : fold.lower c = fold.lower d) {x y : List UInt8}
      (h : SameHost fold x y) :
      SameHost fold (String.utf8EncodeChar c ++ x) (String.utf8EncodeChar d ++ y)

theorem SameHost.refl (fold : Folding) (x : List UInt8) : SameHost fold x x := by
  induction x with
  | nil => exact .nil
  | cons b x ih => exact .byte b ih

theorem SameHost.symm {fold : Folding} {x y : List UInt8} (h : SameHost fold x y) :
    SameHost fold y x := by
  induction h with
  | nil => exact .nil
  | byte b _ ih => exact .byte b ih
  | character hcd _ ih => exact .character hcd.symm ih

/-- `Target`, before it is hashed. -/
def Submitted.target (fold : Folding) (s : Submitted) : Text :=
  s.endpoint.map fold.lower ++ '|' :: s.bucket ++ '|' :: Text.trim '/' s.folder

/-- The settings address one store: scheme and host, apart from case, bucket and
    the root of the keys. -/
def SameStore (fold : Folding) (net : Net) (s t : Submitted) : Prop :=
  ∃ u v, parseUrl net s.endpoint = some u ∧ parseUrl net t.endpoint = some v ∧
    u.scheme = v.scheme ∧ SameHost fold u.host v.host ∧
    s.bucket = t.bucket ∧ s.settings.backupsRoot = t.settings.backupsRoot

/-- They are written alike: the endpoint apart from case, the folder apart from
    slashes at its ends. -/
def Alike (fold : Folding) (s t : Submitted) : Prop :=
  s.endpoint.map fold.lower = t.endpoint.map fold.lower ∧ s.bucket = t.bucket ∧
    Text.trim '/' s.folder = Text.trim '/' t.folder

/-- What `s` has behind a `|` of its bucket or its endpoint stands in the next
    field of `t`. -/
def Moved (fold : Folding) (s t : Submitted) : Prop :=
  (s.endpoint.map fold.lower = t.endpoint.map fold.lower ∧ ∃ x,
    s.bucket = t.bucket ++ '|' :: x ∧
      Text.trim '/' t.folder = x ++ '|' :: Text.trim '/' s.folder) ∨
  ∃ y, s.endpoint.map fold.lower = t.endpoint.map fold.lower ++ '|' :: y ∧
    t.bucket ++ '|' :: Text.trim '/' t.folder =
      y ++ '|' :: (s.bucket ++ '|' :: Text.trim '/' s.folder)

/-! ### Endpoints apart from case -/

section Folded

variable (fold : Folding) {c : Char} (hc : c ∈ ['|', ':', '/', '?', '#', '@', '%'])
include hc

theorem Folding.ne_iff (d : Char) : fold.lower d ≠ c ↔ d ≠ c := not_congr (fold.keeps d c hc)

theorem Folding.beforeFirst (s : Text) :
    (Storage.beforeFirst c s).map fold.lower = Storage.beforeFirst c (s.map fold.lower) := by
  unfold Storage.beforeFirst
  rw [List.takeWhile_map]
  simp only [Function.comp_def, fold.ne_iff hc]

theorem Folding.dropWhile (s : Text) :
    (s.dropWhile (· ≠ c)).map fold.lower = (s.map fold.lower).dropWhile (· ≠ c) := by
  rw [List.dropWhile_map]
  simp only [Function.comp_def, fold.ne_iff hc]

theorem Folding.afterFirst (s : Text) :
    (Storage.afterFirst c s).map fold.lower = Storage.afterFirst c (s.map fold.lower) := by
  unfold Storage.afterFirst
  rw [List.map_drop, fold.dropWhile hc]

end Folded

theorem Folding.hostOf (fold : Folding) (s : Text) :
    (Storage.hostOf s).map fold.lower = Storage.hostOf (s.map fold.lower) := by
  unfold Storage.hostOf List.rtakeWhile
  rw [← List.map_reverse, List.takeWhile_map, List.map_reverse]
  simp only [Function.comp_def, fold.ne_iff (show '@' ∈ _ by decide)]

/-- Where the scheme stands in an endpoint. -/
def schemeText (raw : Text) : Text := beforeFirst ':' (beforeFirst '#' raw)

/-- Where the host stands in an endpoint. -/
def hostText (raw : Text) : Text :=
  hostOf (beforeFirst '/' ((beforeFirst '?' (afterFirst ':' (beforeFirst '#' raw))).drop 2))

theorem Folding.schemeText (fold : Folding) (raw : Text) :
    (Storage.schemeText raw).map fold.lower = Storage.schemeText (raw.map fold.lower) := by
  unfold Storage.schemeText
  rw [fold.beforeFirst (by decide), fold.beforeFirst (by decide)]

theorem Folding.hostText (fold : Folding) (raw : Text) :
    (Storage.hostText raw).map fold.lower = Storage.hostText (raw.map fold.lower) := by
  unfold Storage.hostText
  rw [fold.hostOf, fold.beforeFirst (by decide), List.map_drop, fold.beforeFirst (by decide),
    fold.afterFirst (by decide), fold.beforeFirst (by decide)]

theorem hexValue_toLower : ∀ n < 128,
    Netip.hexValue (Char.ofNat n).toLower = Netip.hexValue (Char.ofNat n) := by
  decide +kernel

theorem Folding.hexValue (fold : Folding) {c : Char} {v : ℕ} (h : Netip.hexValue c = some v) :
    Netip.hexValue (fold.lower c) = some v := by
  have hc : c.toNat < 128 := by
    have := Netip.isHex_bounds (show Netip.isHex c = true by rw [Netip.isHex, h]; rfl)
    omega
  have hlower := hexValue_toLower c.toNat hc
  rw [Char.ofNat_toNat, h] at hlower
  rw [fold.ascii c hc, hlower]

/-- An escape has two digits. -/
theorem unescape_escape {rest : Text} {x : List UInt8} (h : unescape ('%' :: rest) = some x) :
    ∃ a b r high low y, rest = a :: b :: r ∧ Netip.hexValue a = some high ∧
      Netip.hexValue b = some low ∧ unescape r = some y ∧
      x = UInt8.ofNat (high * 16 + low) :: y := by
  rcases rest with _ | ⟨a, _ | ⟨b, r⟩⟩
  · simp [unescape] at h
  · simp [unescape] at h
  · simp only [unescape, Option.bind_eq_bind, Option.bind_eq_some_iff] at h
    obtain ⟨high, hhigh, low, hlow, y, hy, hx⟩ := h
    exact ⟨a, b, r, high, low, y, rfl, hhigh, hlow, hy, (Option.some.inj hx).symm⟩

theorem unescape_character {c : Char} {rest : Text} {x : List UInt8} (hc : c ≠ '%')
    (h : unescape (c :: rest) = some x) :
    ∃ y, unescape rest = some y ∧ x = String.utf8EncodeChar c ++ y := by
  rw [unescape] at h
  · rw [if_neg hc, Option.map_eq_some_iff] at h
    obtain ⟨y, hy, rfl⟩ := h
    exact ⟨y, hy, rfl⟩
  · rintro a b rest' rfl -
    exact hc rfl

/-- Texts that are the same apart from case are decoded to hosts that are. -/
theorem unescape_folded (fold : Folding) {a b : Text} {x y : List UInt8}
    (h : a.map fold.lower = b.map fold.lower) (ha : unescape a = some x)
    (hb : unescape b = some y) : SameHost fold x y := by
  have hpercent : ∀ {c d : Char}, fold.lower c = fold.lower d → (c = '%' ↔ d = '%') := by
    intro c d hcd
    rw [← fold.keeps c '%' (by decide), hcd, fold.keeps d '%' (by decide)]
  induction a using unescape.induct generalizing b x y with
  | case1 =>
    obtain rfl := List.map_eq_nil_iff.mp h.symm
    cases ha
    cases hb
    exact .nil
  | case2 a₁ a₂ rest ih =>
    obtain ⟨d, rest', rfl, hd, hrest⟩ := List.map_eq_cons_iff.mp h.symm
    obtain rfl := (hpercent hd.symm).mp rfl
    obtain ⟨_, _, _, high, low, x', hshape, hhigh, hlow, hx', rfl⟩ := unescape_escape ha
    cases hshape
    obtain ⟨b₁, b₂, r, high', low', y', rfl, hhigh', hlow', hy', rfl⟩ := unescape_escape hb
    simp only [List.map_cons, List.cons.injEq] at hrest
    -- digits that are the same apart from case have the same value
    have hh : some high' = some high := by
      rw [← fold.hexValue hhigh', hrest.1, fold.hexValue hhigh]
    have hl : some low' = some low := by
      rw [← fold.hexValue hlow', hrest.2.1, fold.hexValue hlow]
    obtain rfl := Option.some.inj hh
    obtain rfl := Option.some.inj hl
    exact .byte _ (ih hrest.2.2.symm hx' hy')
  | case3 rest hshort =>
    obtain ⟨a₁, a₂, r, -, -, -, hshape, -⟩ := unescape_escape ha
    exact (hshort a₁ a₂ r rfl hshape).elim
  | case4 c rest _ hc ih =>
    obtain ⟨d, rest', rfl, hd, hrest⟩ := List.map_eq_cons_iff.mp h.symm
    obtain ⟨x', hx', rfl⟩ := unescape_character hc ha
    obtain ⟨y', hy', rfl⟩ := unescape_character (fun h => hc ((hpercent hd).mp h)) hb
    exact .character hd.symm (ih hrest.symm hx' hy')

theorem parseAuthority_host {net : Net} {scheme rest : Text} {u : Url}
    (h : parseAuthority net scheme rest = some u) (hhost : u.host ≠ []) :
    u.scheme = scheme ∧ unescape (hostOf (beforeFirst '/' (rest.drop 2))) = some u.host := by
  unfold parseAuthority at h
  split at h
  · obtain rfl := Option.some.inj h
    exact absurd rfl hhost
  · dsimp only at h
    split at h
    · cases h
    · obtain ⟨host, hdecoded, rfl⟩ := Option.map_eq_some_iff.mp h
      exact ⟨rfl, hdecoded⟩

/-- An endpoint with a scheme and a host has them where they are expected. -/
theorem parseUrl_parts {net : Net} {raw : Text} {u : Url} (h : parseUrl net raw = some u)
    (hscheme : u.scheme ≠ []) (hhost : u.host ≠ []) :
    validScheme (schemeText raw) = true ∧ u.scheme = (schemeText raw).map Char.toLower ∧
      unescape (hostText raw) = some u.host := by
  unfold parseUrl at h
  dsimp only at h
  split at h
  · cases h
  · split at h
    · next hcolon =>
      obtain ⟨hs, hh⟩ := parseAuthority_host h hhost
      exact ⟨hcolon.2, hs, hh⟩
    · split at h
      · cases h
      · exact absurd (parseAuthority_host h hhost).1 hscheme

theorem isLetter_ascii {c : Char} (h : isLetter c = true) : c.toNat < 128 := by
  simp only [isLetter, Bool.or_eq_true, Bool.and_eq_true, decide_eq_true_eq] at h
  rcases h with h | h
  · exact lt_of_le_of_lt (show c.toNat ≤ 'z'.toNat from h.2) (by decide)
  · exact lt_of_le_of_lt (show c.toNat ≤ 'Z'.toNat from h.2) (by decide)

theorem ascii_of_validScheme {s : Text} (h : validScheme s = true) : ∀ c ∈ s, c.toNat < 128 := by
  cases s with
  | nil => exact fun c hc => nomatch hc
  | cons c rest =>
    obtain ⟨hc, hrest⟩ := Bool.and_eq_true_iff.mp h
    intro d hd
    rcases List.mem_cons.mp hd with rfl | hd
    · exact isLetter_ascii hc
    · have hall := List.all_eq_true.mp hrest d hd
      simp only [Bool.or_eq_true, Bool.and_eq_true, decide_eq_true_eq] at hall
      rcases hall with (((hl | hn) | rfl) | rfl) | rfl
      · exact isLetter_ascii hl
      · exact lt_of_le_of_lt (show d.toNat ≤ '9'.toNat from hn.2) (by decide)
      · decide
      · decide
      · decide

/-- Endpoints that are the same apart from case have the same scheme and, apart
    from case, the same host. -/
theorem parseUrl_folded {fold : Folding} {net : Net} {a b : Text} {u v : Url}
    (ha : parseUrl net a = some u) (hb : parseUrl net b = some v) (hu : u.scheme ≠ [])
    (hu' : u.host ≠ []) (hv : v.scheme ≠ []) (hv' : v.host ≠ [])
    (h : a.map fold.lower = b.map fold.lower) :
    u.scheme = v.scheme ∧ SameHost fold u.host v.host := by
  obtain ⟨hvalid, hscheme, hhost⟩ := parseUrl_parts ha hu hu'
  obtain ⟨hvalid', hscheme', hhost'⟩ := parseUrl_parts hb hv hv'
  have hlower : ∀ {s : Text}, validScheme s = true → s.map Char.toLower = s.map fold.lower :=
    fun hs => List.map_congr_left (fun c hc => (fold.ascii c (ascii_of_validScheme hs c hc)).symm)
  constructor
  · rw [hscheme, hscheme', hlower hvalid, hlower hvalid', fold.schemeText, fold.schemeText, h]
  · refine unescape_folded fold ?_ hhost hhost'
    rw [fold.hostText, fold.hostText, h]

/-! ### What validation gives -/

theorem Submitted.validate_parts {net : Net} {s : Submitted} (h : s.validate net = .ok ()) :
    (∃ u, parseUrl net s.endpoint = some u ∧ u.scheme ≠ [] ∧ u.host ≠ []) ∧
      ¬ ['.', '.'] <:+: s.folder := by
  unfold Submitted.validate at h
  cases hend : s.validateEndpoint net with
  | error e =>
    rw [hend] at h
    cases h
  | ok _ =>
    rw [hend] at h
    constructor
    · unfold Submitted.validateEndpoint at hend
      split at hend
      · cases hend
      · next u hu =>
        split at hend
        · cases hend
        · next hparts =>
          rw [not_or, not_or] at hparts
          refine ⟨u, hu, fun hnil => hparts.1 ⟨?_, ?_⟩, hparts.2.1⟩
          · rw [hnil]
            decide
          · rw [hnil]
            decide
    · intro hdots
      change (if s.bucketProtection = none then _ else _ : Except Err Unit) = .ok () at h
      repeat' split at h
      all_goals first | cases h; done | skip
      next hfolder => exact hfolder (Or.inr hdots)

/-! ### The bars -/

theorem trim_within (c : Char) (s : Text) : Text.trim c s <:+: s :=
  (List.rdropWhile_prefix _ _).isInfix.trans (List.dropWhile_suffix _).isInfix

/-- The bars of a folder are those of the root of its keys. -/
theorem count_backupsRoot {s : Submitted} (hdots : ¬ ['.', '.'] <:+: s.folder) :
    s.settings.backupsRoot.count '|' = (Text.trim '/' s.folder).count '|' := by
  have hpieces : ['.', '.'] ∉ Text.split '/' (Text.trim '/' s.folder) :=
    fun hmem => hdots ((Text.infix_of_mem_split hmem).trans (trim_within '/' s.folder))
  have hclean : (Text.joinPath [Text.trim '/' s.folder, Settings.backupsSegment]).count '|' =
      (Text.trim '/' s.folder).count '|' := by
    unfold Text.joinPath
    by_cases hnil : Text.trim '/' s.folder = []
    · rw [hnil]
      decide
    · have hsplit : Text.split '/' (Text.trim '/' s.folder ++ '/' :: Settings.backupsSegment) =
          Text.split '/' (Text.trim '/' s.folder) ++ [Settings.backupsSegment] :=
        Text.split_snoc _ (by decide)
      have hfilter : [Text.trim '/' s.folder, Settings.backupsSegment].filter (· ≠ []) =
          [Text.trim '/' s.folder, Settings.backupsSegment] := by
        rw [List.filter_cons_of_pos (by simpa using hnil)]
        rfl
      have hjoin : ['/'].intercalate [Text.trim '/' s.folder, Settings.backupsSegment] =
          Text.trim '/' s.folder ++ '/' :: Settings.backupsSegment := by
        simp [List.intercalate]
      dsimp only
      rw [hfilter, if_neg (by simp), hjoin, Text.count_cleanPath (by decide) (by decide),
        List.count_append]
      · rfl
      · rw [hsplit, List.mem_append, not_or]
        exact ⟨hpieces, by decide⟩
  show (Text.joinPath [Text.trim '/' s.folder, Settings.backupsSegment] ++ ['/']).count '|' = _
  rw [List.count_append, hclean]
  rfl

/-- Two texts with a bar: the parts are the same, or a part of one side is
    written on the other. -/
theorem append_bar_eq {a b a' b' : Text} (h : a ++ '|' :: b = a' ++ '|' :: b') :
    (a = a' ∧ b = b') ∨ (∃ y, a = a' ++ '|' :: y ∧ b' = y ++ '|' :: b) ∨
      (∃ y, a' = a ++ '|' :: y ∧ b = y ++ '|' :: b') := by
  rcases List.append_eq_append_iff.mp h with ⟨x, hx, hx'⟩ | ⟨x, hx, hx'⟩
  · cases x with
    | nil => exact Or.inl ⟨by simpa using hx.symm, by simpa using hx'⟩
    | cons c x =>
      obtain ⟨rfl, rfl⟩ := List.cons.inj hx'
      exact Or.inr (Or.inr ⟨x, hx, rfl⟩)
  · cases x with
    | nil => exact Or.inl ⟨by simpa using hx, by simpa using hx'.symm⟩
    | cons c x =>
      obtain ⟨rfl, rfl⟩ := List.cons.inj hx'
      exact Or.inr (Or.inl ⟨x, hx, rfl⟩)

variable {fold : Folding} {net : Net} {s t : Submitted}

theorem Submitted.target_eq (fold : Folding) (s : Submitted) : s.target fold =
    s.endpoint.map fold.lower ++ '|' :: (s.bucket ++ '|' :: Text.trim '/' s.folder) := by
  simp [Submitted.target]

/-- Two settings have one target if they are written alike, or if a part of one
    has been moved over a bar. -/
theorem target_eq_iff : s.target fold = t.target fold ↔
    Alike fold s t ∨ Moved fold s t ∨ Moved fold t s := by
  rw [Submitted.target_eq, Submitted.target_eq]
  constructor
  · intro h
    rcases append_bar_eq h with ⟨he, hb⟩ | ⟨y, he, hb⟩ | ⟨y, he, hb⟩
    · rcases append_bar_eq hb with ⟨hb, hf⟩ | ⟨x, hb, hf⟩ | ⟨x, hb, hf⟩
      · exact Or.inl ⟨he, hb, hf⟩
      · exact Or.inr (Or.inl (Or.inl ⟨he, x, hb, hf⟩))
      · exact Or.inr (Or.inr (Or.inl ⟨he.symm, x, hb, hf⟩))
    · exact Or.inr (Or.inl (Or.inr ⟨y, he, hb⟩))
    · exact Or.inr (Or.inr (Or.inr ⟨y, he, hb⟩))
  · have hmoved : ∀ {s t : Submitted}, Moved fold s t →
        s.endpoint.map fold.lower ++ '|' :: (s.bucket ++ '|' :: Text.trim '/' s.folder) =
          t.endpoint.map fold.lower ++ '|' :: (t.bucket ++ '|' :: Text.trim '/' t.folder) := by
      rintro s t (⟨he, x, hb, hf⟩ | ⟨y, he, hb⟩)
      · rw [he, hb, hf]
        simp
      · rw [he, hb]
        simp
    rintro (⟨he, hb, hf⟩ | hm | hm)
    · rw [he, hb, hf]
    · exact hmoved hm
    · exact (hmoved hm).symm

/-- Settings written alike are of one store. -/
theorem Alike.sameStore (hs : s.validate net = .ok ()) (ht : t.validate net = .ok ())
    (h : Alike fold s t) : SameStore fold net s t := by
  obtain ⟨⟨u, hu, hscheme, hhost⟩, -⟩ := Submitted.validate_parts hs
  obtain ⟨⟨v, hv, hscheme', hhost'⟩, -⟩ := Submitted.validate_parts ht
  obtain ⟨he, hb, hf⟩ := h
  obtain ⟨hsame, hhosts⟩ := parseUrl_folded hu hv hscheme hhost hscheme' hhost' he
  refine ⟨u, v, hu, hv, hsame, hhosts, hb, ?_⟩
  show Text.joinPath [Text.trim '/' s.folder, _] ++ ['/'] =
    Text.joinPath [Text.trim '/' t.folder, _] ++ ['/']
  rw [hf]

/-- What is moved over a bar makes another store: another bucket, or a folder
    with more bars. -/
theorem Moved.not_sameStore (hs : s.validate net = .ok ()) (ht : t.validate net = .ok ())
    (h : Moved fold s t) : ¬ SameStore fold net s t := by
  rintro ⟨u, v, -, -, -, -, hbucket, hroot⟩
  have hcount : (Text.trim '/' s.folder).count '|' = (Text.trim '/' t.folder).count '|' := by
    rw [← count_backupsRoot (Submitted.validate_parts hs).2, hroot,
      count_backupsRoot (Submitted.validate_parts ht).2]
  rcases h with ⟨-, x, hb, -⟩ | ⟨y, -, hb⟩
  · rw [hbucket] at hb
    have hlen := congrArg List.length hb
    simp at hlen
  · rw [hbucket] at hb
    -- the folder has at least one bar more
    have hbars := congrArg (List.count '|') hb
    simp only [List.count_append, List.count_cons_self] at hbars
    omega

theorem SameStore.symm (h : SameStore fold net s t) : SameStore fold net t s := by
  obtain ⟨u, v, hu, hv, hscheme, hhost, hbucket, hroot⟩ := h
  exact ⟨v, u, hv, hu, hscheme.symm, hhost.symm, hbucket.symm, hroot.symm⟩

/-- For two settings that `Validate` accepts, one target stands for one store
    exactly if the settings, should they be of one store, are written alike, and
    nothing of one is moved over a bar in the other. -/
theorem target_identifies_iff (hs : s.validate net = .ok ()) (ht : t.validate net = .ok ()) :
    (s.target fold = t.target fold ↔ SameStore fold net s t) ↔
      (SameStore fold net s t → Alike fold s t) ∧ ¬ Moved fold s t ∧ ¬ Moved fold t s := by
  have hst : Moved fold s t → ¬ SameStore fold net s t := fun hm => hm.not_sameStore hs ht
  have hts : Moved fold t s → ¬ SameStore fold net s t :=
    fun hm hsame => hm.not_sameStore ht hs hsame.symm
  rw [target_eq_iff]
  constructor
  · intro h
    refine ⟨fun hsame => ?_, fun hm => ?_, fun hm => ?_⟩
    · rcases h.mpr hsame with ha | hm | hm
      · exact ha
      · exact absurd hsame (hst hm)
      · exact absurd hsame (hts hm)
    · exact hst hm (h.mp (Or.inr (Or.inl hm)))
    · exact hts hm (h.mp (Or.inr (Or.inr hm)))
  · rintro ⟨hwritten, hno, hno'⟩
    refine ⟨fun htarget => ?_, fun hsame => Or.inl (hwritten hsame)⟩
    rcases htarget with ha | hm | hm
    · exact ha.sameStore hs ht
    · exact absurd hm hno
    · exact absurd hm hno'

/-- Letters of ASCII only, as `Settings.target` has them. -/
def asciiFolding : Folding where
  lower := Char.toLower
  ascii := fun _ _ => rfl
  keeps := by
    intro c d hd
    have hd : (d.val < 65 ∨ 90 < d.val) ∧ (d.val < 97 ∨ 122 < d.val) := by
      simp only [List.mem_cons, List.not_mem_nil, or_false] at hd
      rcases hd with rfl | rfl | rfl | rfl | rfl | rfl | rfl <;> decide
    unfold Char.toLower
    split
    · -- a capital letter, which is none of them, becomes a letter, which is none either
      rename_i hupper
      have hlow : 65 ≤ c.val ∧ c.val ≤ 90 := hupper
      have hne : c.val ≠ d.val := by grind
      have hne' : c.val + 32 ≠ d.val := by grind
      refine ⟨fun h => absurd (congrArg Char.val h) hne', fun h => ?_⟩
      exact absurd (congrArg Char.val h) hne
    · exact Iff.rfl

/-- A network that accepts every host. -/
def openNet : Net where
  acceptsHost := fun _ => true
  acceptsUser := fun _ => true
  privateHost := fun _ => .ok ()

/-- Settings of one bucket. -/
def settingsOf (endpoint bucket folder : String) : Submitted where
  endpoint := endpoint.toList
  bucket := bucket.toList
  folder := folder.toList
  accessKey := "key".toList
  secretKey := "secret".toList
  bucketProtection := some .versioning

theorem target_identifies_sample :
    (settingsOf "https://S3.example.com" "safe" "pgfy/").validate openNet = .ok () ∧
      (settingsOf "https://s3.example.com" "safe" "pgfy").validate openNet = .ok () ∧
      SameStore asciiFolding openNet (settingsOf "https://S3.example.com" "safe" "pgfy/")
        (settingsOf "https://s3.example.com" "safe" "pgfy") := by
  have hs : (settingsOf "https://S3.example.com" "safe" "pgfy/").validate openNet = .ok () := by
    decide +kernel
  have ht : (settingsOf "https://s3.example.com" "safe" "pgfy").validate openNet = .ok () := by
    decide +kernel
  have halike : Alike asciiFolding (settingsOf "https://S3.example.com" "safe" "pgfy/")
      (settingsOf "https://s3.example.com" "safe" "pgfy") :=
    ⟨by decide +kernel, by decide +kernel, by decide +kernel⟩
  have hplain : ∀ {s t : Submitted}, s.bucket.count '|' = 0 →
      (s.endpoint.map asciiFolding.lower).count '|' = 0 → ¬ Moved asciiFolding s t := by
    rintro s t hb he (⟨-, x, hx, -⟩ | ⟨y, hy, -⟩)
    · rw [hx] at hb
      simp at hb
    · rw [hy] at he
      simp at he
  refine ⟨hs, ht, ((target_identifies_iff hs ht).mpr ⟨fun _ => halike, ?_, ?_⟩).mp ?_⟩
  · exact hplain (by decide +kernel) (by decide +kernel)
  · exact hplain (by decide +kernel) (by decide +kernel)
  · exact target_eq_iff.mpr (Or.inl halike)

/-- Two buckets share a target. One store has two by a slash after its host, and one
    by an escape in it. -/
theorem target_shared_and_split :
    ((settingsOf "https://s3.example.com" "a|b" "c").validate openNet = .ok () ∧
      (settingsOf "https://s3.example.com" "a" "b|c").validate openNet = .ok () ∧
      (settingsOf "https://s3.example.com" "a|b" "c").target asciiFolding =
        (settingsOf "https://s3.example.com" "a" "b|c").target asciiFolding ∧
      ¬ SameStore asciiFolding openNet (settingsOf "https://s3.example.com" "a|b" "c")
        (settingsOf "https://s3.example.com" "a" "b|c")) ∧
    ∀ e ∈ [("https://s3.example.com", "https://s3.example.com/"),
        ("https://é.example.com", "https://%C3%A9.example.com")],
      (settingsOf e.1 "safe" "pgfy").validate openNet = .ok () ∧
      (settingsOf e.2 "safe" "pgfy").validate openNet = .ok () ∧
      (settingsOf e.1 "safe" "pgfy").target asciiFolding ≠
        (settingsOf e.2 "safe" "pgfy").target asciiFolding ∧
      SameStore asciiFolding openNet (settingsOf e.1 "safe" "pgfy")
        (settingsOf e.2 "safe" "pgfy") := by
  have hstore : ∀ {a b : String} {u v : Url}, parseUrl openNet a.toList = some u →
      parseUrl openNet b.toList = some v → u.scheme = v.scheme → u.host = v.host →
      SameStore asciiFolding openNet (settingsOf a "safe" "pgfy") (settingsOf b "safe" "pgfy") :=
    fun hu hv hscheme hhost => ⟨_, _, hu, hv, hscheme, hhost ▸ .refl _ _, rfl, rfl⟩
  refine ⟨⟨by decide +kernel, by decide +kernel, by decide +kernel, ?_⟩, fun e he => ?_⟩
  · rintro ⟨_, _, -, -, -, -, hbucket, -⟩
    exact absurd hbucket (by decide)
  · simp only [List.mem_cons, List.not_mem_nil, or_false] at he
    rcases he with rfl | rfl
    · exact ⟨by decide +kernel, by decide +kernel, by decide +kernel,
        hstore (u := ⟨"https".toList, "s3.example.com".toUTF8.toList, []⟩)
          (v := ⟨"https".toList, "s3.example.com".toUTF8.toList, ['/']⟩)
          (by decide +kernel) (by decide +kernel) rfl rfl⟩
    · exact ⟨by decide +kernel, by decide +kernel, by decide +kernel,
        hstore (u := ⟨"https".toList, "é.example.com".toUTF8.toList, []⟩)
          (v := ⟨"https".toList, "é.example.com".toUTF8.toList, []⟩)
          (by decide +kernel) (by decide +kernel) rfl rfl⟩

end Storage

end Pgfy
