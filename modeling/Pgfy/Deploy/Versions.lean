import Pgfy.Framework.Text

/-! # Which release may follow which

    An update goes from the installed version to a newer one: a stable version to a
    newer stable one, a pre-release to a later pre-release of the same version or to
    a stable version that is not older. What "newer" means is said apart from the
    installer, by `SemVer.Precedes`, in the words of semantic versioning.

    The installer compares lists of tuples, as Python does. `Identifier.key` ties
    the tuples to the identifiers of semantic versioning, and `prereleaseKey_less`
    the order of the one to the order of the other.
-/

namespace Pgfy.Deploy

/-! ### Python's comparisons -/

/-- How sequences are compared: at the first place where they differ, or by which
    of them ends first. -/
def sequenceLess {α : Type} [DecidableEq α] (less : α → α → Bool) : List α → List α → Bool
  | _, [] => false
  | [], _ :: _ => true
  | a :: as, b :: bs => if a = b then sequenceLess less as bs else less a b

theorem sequenceLess_self {α : Type} [DecidableEq α] (less : α → α → Bool) (as : List α) :
    sequenceLess less as as = false := by
  induction as with
  | nil => rfl
  | cons a as ih =>
    unfold sequenceLess
    rw [if_pos rfl]
    exact ih

/-- Comparing sequences of values that stand for others is the lexicographic order
    of those. -/
theorem sequenceLess_map {α β : Type} [DecidableEq α] {less : α → α → Bool}
    {r : β → β → Prop} {f : β → α} (hf : Function.Injective f) (hirrefl : ∀ x, ¬ r x x)
    (hless : ∀ x y, less (f x) (f y) = true ↔ r x y) : ∀ xs ys : List β,
    sequenceLess less (xs.map f) (ys.map f) = true ↔ List.Lex r xs ys := by
  intro xs
  induction xs with
  | nil =>
    intro ys
    cases ys with
    | nil => exact ⟨fun h => absurd h (by simp [sequenceLess]), fun h => by cases h⟩
    | cons y ys => exact ⟨fun _ => .nil, fun _ => rfl⟩
  | cons x xs ih =>
    intro ys
    cases ys with
    | nil => exact ⟨fun h => absurd h (by simp [sequenceLess]), fun h => by cases h⟩
    | cons y ys =>
      rw [List.map_cons, List.map_cons]
      unfold sequenceLess
      by_cases hxy : x = y
      · subst hxy
        rw [if_pos rfl, ih ys]
        constructor
        · exact fun h => .cons h
        · intro h
          cases h with
          | cons h => exact h
          | rel h => exact absurd h (hirrefl x)
      · rw [if_neg (fun h => hxy (hf h)), hless]
        constructor
        · exact fun h => .rel h
        · intro h
          cases h with
          | cons h => exact absurd rfl hxy
          | rel h => exact h

def characterLess (c d : Char) : Bool := c.toNat < d.toNat

/-- How strings are compared. -/
def stringLess : Text → Text → Bool := sequenceLess characterLess

/-- How three numbers are compared. -/
def coreLess (x y : ℕ × ℕ × ℕ) : Bool :=
  if x.1 ≠ y.1 then x.1 < y.1
  else if x.2.1 ≠ y.2.1 then x.2.1 < y.2.1
  else x.2.2 < y.2.2

/-- How two numbers and a string are compared. -/
def partLess (x y : ℕ × ℕ × Text) : Bool :=
  if x.1 ≠ y.1 then x.1 < y.1
  else if x.2.1 ≠ y.2.1 then x.2.1 < y.2.1
  else stringLess x.2.2 y.2.2

/-! ### The installer's rule -/

inductive VersionError where
  /-- an `InstallError`: the version does not match the pattern -/
  | invalid (version : Text)
  /-- a `ValueError`: a number has too many digits to be converted -/
  | tooLong
deriving DecidableEq

/-- What the pattern of a version matches: its three numbers as they are written,
    and what follows the hyphen. -/
structure Groups where
  major : Text
  minor : Text
  patch : Text
  pre : Option Text
deriving DecidableEq

/-- One or more digits at the start, and what follows them. -/
def someDigits (s : Text) : Option (Text × Text) :=
  let digits := s.takeWhile Char.isDigit
  if digits = [] then none else some (digits, s.dropWhile Char.isDigit)

/-- What follows a character, if it comes first. -/
def skipCharacter (c : Char) : Text → Option Text
  | [] => none
  | d :: rest => if d = c then some rest else none

/-- A character of a pre-release. -/
def preCharacter (c : Char) : Bool := c.isAlphanum || c = '.' || c = '-'

/-- `VERSION.fullmatch`. -/
def matchVersion (version : Text) : Option Groups := do
  let s ← skipCharacter 'v' version
  let (major, s) ← someDigits s
  let s ← skipCharacter '.' s
  let (minor, s) ← someDigits s
  let s ← skipCharacter '.' s
  let (patch, s) ← someDigits s
  match s with
  | [] => some { major, minor, patch, pre := none }
  | '-' :: pre =>
    if pre ≠ [] ∧ pre.all preCharacter then some { major, minor, patch, pre := some pre } else none
  | _ => none

/-- The most digits Python converts to a number. -/
def maxDigits : ℕ := 4300

def pythonInt (digits : Text) : Except VersionError ℕ :=
  if digits.length ≤ maxDigits then .ok (Text.number digits) else .error .tooLong

def parseVersion (version : Text) : Except VersionError ((ℕ × ℕ × ℕ) × Option Text) :=
  match matchVersion version with
  | none => .error (.invalid version)
  | some g => do
    let major ← pythonInt g.major
    let minor ← pythonInt g.minor
    let patch ← pythonInt g.patch
    .ok ((major, minor, patch), g.pre)

def isDigits (part : Text) : Bool := part ≠ [] && part.all Char.isDigit

/-- Numeric identifiers sort numerically and before alphanumeric ones. -/
def prereleaseKey (pre : Text) : Except VersionError (List (ℕ × ℕ × Text)) :=
  (Text.split '.' pre).mapM (fun part =>
    if isDigits part then do
      let n ← pythonInt part
      .ok (0, n, [])
    else .ok (1, 0, part))

def updateAllowed (installed candidate : Text) : Except VersionError Bool := do
  let (oldCore, oldPre) ← parseVersion installed
  let (newCore, newPre) ← parseVersion candidate
  match newPre, oldPre with
  | some newPre, some oldPre =>
    if newCore = oldCore then do
      let newKey ← prereleaseKey newPre
      let oldKey ← prereleaseKey oldPre
      .ok (sequenceLess partLess oldKey newKey)
    else .ok false
  | some _, none => .ok false
  | none, some _ => .ok (!coreLess newCore oldCore)
  | none, none => .ok (coreLess oldCore newCore)

/-- An update from one version to another is not refused. -/
def Allowed (a b : Text) : Prop := updateAllowed a b = .ok true

/-! ### Semantic versioning -/

/-- A dot-separated identifier of a pre-release: of digits only, or not. -/
inductive Identifier where
  | numeric (n : ℕ)
  | alphanumeric (s : Text)
deriving DecidableEq

/-- Numeric identifiers are compared numerically, the others in ASCII order, and a
    numeric one is lower than one that is not. -/
inductive Identifier.Below : Identifier → Identifier → Prop
  | numeric {m n : ℕ} (h : m < n) : Below (.numeric m) (.numeric n)
  | alphanumeric {s t : Text} (h : List.Lex (fun c d => c.toNat < d.toNat) s t) :
      Below (.alphanumeric s) (.alphanumeric t)
  | mixed (n : ℕ) (s : Text) : Below (.numeric n) (.alphanumeric s)

/-- A version: its numbers, and the identifiers of a pre-release. -/
structure SemVer where
  major : ℕ
  minor : ℕ
  patch : ℕ
  pre : Option (List Identifier)
deriving DecidableEq

/-- The order of major, minor and patch. -/
def SemVer.CoreBelow (a b : SemVer) : Prop :=
  a.major < b.major ∨ a.major = b.major ∧
    (a.minor < b.minor ∨ a.minor = b.minor ∧ a.patch < b.patch)

def SemVer.SameCore (a b : SemVer) : Prop :=
  a.major = b.major ∧ a.minor = b.minor ∧ a.patch = b.patch

/-- A pre-release is lower than its version. Two of them are compared identifier by
    identifier, and the one with more of them is higher if all others are the same. -/
inductive SemVer.PreBelow : Option (List Identifier) → Option (List Identifier) → Prop
  | release (p : List Identifier) : PreBelow (some p) none
  | earlier {p q : List Identifier} (h : List.Lex Identifier.Below p q) :
      PreBelow (some p) (some q)

/-- Strictly lower precedence. -/
def SemVer.Precedes (a b : SemVer) : Prop :=
  a.CoreBelow b ∨ a.SameCore b ∧ SemVer.PreBelow a.pre b.pre

def identifier (part : Text) : Identifier :=
  if isDigits part then .numeric (Text.number part) else .alphanumeric part

/-- The identifiers of a pre-release. -/
def identifiers (pre : Text) : List Identifier := (Text.split '.' pre).map identifier

def Groups.semVer (g : Groups) : SemVer where
  major := Text.number g.major
  minor := Text.number g.minor
  patch := Text.number g.patch
  pre := g.pre.map identifiers

/-- What a version that the pattern accepts means. -/
def semVerOf (version : Text) : Option SemVer := (matchVersion version).map Groups.semVer

/-! ### Keys and identifiers -/

theorem stringLess_iff (s t : Text) :
    stringLess s t = true ↔ List.Lex (fun c d => c.toNat < d.toNat) s t := by
  have hless : ∀ c d : Char, characterLess (id c) (id d) = true ↔ c.toNat < d.toNat := by
    intro c d
    exact decide_eq_true_iff
  have h := sequenceLess_map Function.injective_id (fun c : Char => lt_irrefl c.toNat) hless s t
  rwa [List.map_id, List.map_id] at h

namespace Identifier

/-- The tuple that stands for an identifier. -/
def key : Identifier → ℕ × ℕ × Text
  | numeric n => (0, n, [])
  | alphanumeric s => (1, 0, s)

theorem key_injective : Function.Injective key := by
  intro i j h
  cases i <;> cases j <;> simp_all [key]

theorem below_irrefl (i : Identifier) : ¬ i.Below i := by
  intro h
  cases h with
  | numeric h => exact lt_irrefl _ h
  | alphanumeric h => exact List.lex_irrefl (fun c => lt_irrefl c.toNat) _ h

theorem Below.trans {i j k : Identifier} (hij : i.Below j) (hjk : j.Below k) : i.Below k := by
  cases hij with
  | numeric h =>
    cases hjk with
    | numeric h' => exact .numeric (h.trans h')
    | mixed => exact .mixed _ _
  | alphanumeric h =>
    cases hjk with
    | alphanumeric h' => exact .alphanumeric (List.lex_trans (fun h h' => lt_trans h h') h h')
  | mixed =>
    cases hjk with
    | alphanumeric h' => exact .mixed _ _

theorem partLess_key (i j : Identifier) : partLess i.key j.key = true ↔ i.Below j := by
  cases i with
  | numeric m =>
    cases j with
    | numeric n =>
      constructor
      · intro h
        by_cases hmn : m = n
        · simp [partLess, key, hmn, stringLess, sequenceLess] at h
        · have hpart : partLess (numeric m).key (numeric n).key = decide (m < n) := by
            unfold partLess
            rw [if_neg (by simp [key]), if_pos (by simpa [key] using hmn)]
            rfl
          rw [hpart] at h
          exact .numeric (of_decide_eq_true h)
      · intro h
        cases h with
        | numeric h => simp [partLess, key, h, h.ne]
    | alphanumeric t => exact ⟨fun _ => .mixed m t, fun _ => rfl⟩
  | alphanumeric s =>
    cases j with
    | numeric n => exact ⟨fun h => absurd h (by simp [partLess, key]), fun h => by cases h⟩
    | alphanumeric t =>
      have hpart : partLess (alphanumeric s).key (alphanumeric t).key = stringLess s t := by
        simp [partLess, key]
      rw [hpart, stringLess_iff]
      constructor
      · exact fun h => .alphanumeric h
      · intro h
        cases h with
        | alphanumeric h => exact h

end Identifier

theorem except_bind_eq_ok {ε α β : Type} {x : Except ε α} {f : α → Except ε β} {b : β} :
    (x >>= f) = .ok b ↔ ∃ a, x = .ok a ∧ f a = .ok b := by
  cases x with
  | error e => exact ⟨fun h => (by cases h), fun ⟨_, h, _⟩ => (by cases h)⟩
  | ok a => exact ⟨fun h => ⟨a, rfl, h⟩, fun ⟨_, h, hf⟩ => (by cases h; exact hf)⟩

theorem pythonInt_eq {digits : Text} {n : ℕ} (h : pythonInt digits = .ok n) :
    n = Text.number digits := by
  unfold pythonInt at h
  split at h
  · cases h
    rfl
  · cases h

/-- The key of a pre-release is made of the tuples of its identifiers. -/
theorem prereleaseKey_eq {pre : Text} {key : List (ℕ × ℕ × Text)}
    (h : prereleaseKey pre = .ok key) : key = (identifiers pre).map Identifier.key := by
  unfold prereleaseKey identifiers at *
  generalize Text.split '.' pre = parts at h ⊢
  induction parts generalizing key with
  | nil =>
    cases h
    rfl
  | cons part parts ih =>
    rw [List.mapM_cons, except_bind_eq_ok] at h
    obtain ⟨tuple, htuple, h⟩ := h
    rw [except_bind_eq_ok] at h
    obtain ⟨tuples, htuples, h⟩ := h
    cases h
    have hpart : tuple = (identifier part).key := by
      unfold identifier
      by_cases hdigits : isDigits part
      · rw [if_pos hdigits, except_bind_eq_ok] at htuple
        obtain ⟨n, hn, htuple⟩ := htuple
        cases htuple
        rw [if_pos hdigits, pythonInt_eq hn]
        rfl
      · rw [if_neg hdigits] at htuple
        cases htuple
        rw [if_neg hdigits]
        rfl
    rw [ih htuples, hpart]
    rfl

/-- A pre-release has a key if none of its numbers is too long. -/
theorem prereleaseKey_ok {pre : Text}
    (h : ∀ part ∈ Text.split '.' pre, isDigits part = true → part.length ≤ maxDigits) :
    ∃ key, prereleaseKey pre = .ok key := by
  unfold prereleaseKey
  generalize Text.split '.' pre = parts at h
  induction parts with
  | nil => exact ⟨[], rfl⟩
  | cons part parts ih =>
    obtain ⟨hpart, hparts⟩ := List.forall_mem_cons.mp h
    obtain ⟨key, hkey⟩ := ih hparts
    rw [List.mapM_cons, hkey]
    by_cases hdigits : isDigits part
    · rw [if_pos hdigits, pythonInt, if_pos (hpart hdigits)]
      exact ⟨_, rfl⟩
    · rw [if_neg hdigits]
      exact ⟨_, rfl⟩

/-- Keys are ordered as the pre-releases are. -/
theorem prereleaseKey_less {p q : Text} {kp kq : List (ℕ × ℕ × Text)}
    (hp : prereleaseKey p = .ok kp) (hq : prereleaseKey q = .ok kq) :
    sequenceLess partLess kp kq = true ↔
      List.Lex Identifier.Below (identifiers p) (identifiers q) := by
  rw [prereleaseKey_eq hp, prereleaseKey_eq hq]
  exact sequenceLess_map Identifier.key_injective Identifier.below_irrefl
    Identifier.partLess_key _ _

theorem prereleaseKey_same {p q : Text} {kp kq : List (ℕ × ℕ × Text)}
    (hp : prereleaseKey p = .ok kp) (hq : prereleaseKey q = .ok kq) :
    kp = kq ↔ identifiers p = identifiers q := by
  rw [prereleaseKey_eq hp, prereleaseKey_eq hq]
  exact (List.map_injective_iff.mpr Identifier.key_injective).eq_iff

/-! ### What is allowed -/

theorem coreLess_iff (x y : ℕ × ℕ × ℕ) : coreLess x y = true ↔
    x.1 < y.1 ∨ x.1 = y.1 ∧ (x.2.1 < y.2.1 ∨ x.2.1 = y.2.1 ∧ x.2.2 < y.2.2) := by
  unfold coreLess
  split
  · rw [decide_eq_true_iff]
    omega
  · split
    · rw [decide_eq_true_iff]
      omega
    · rw [decide_eq_true_iff]
      omega

/-- The three ways an update can go. -/
inductive Follows : ℕ × ℕ × ℕ → Option Text → ℕ × ℕ × ℕ → Option Text → Prop
  | prerelease {core : ℕ × ℕ × ℕ} {p q : Text} {kp kq : List (ℕ × ℕ × Text)}
      (hp : prereleaseKey p = .ok kp) (hq : prereleaseKey q = .ok kq)
      (h : sequenceLess partLess kp kq = true) : Follows core (some p) core (some q)
  | release {old new : ℕ × ℕ × ℕ} (p : Text) (h : coreLess new old = false) :
      Follows old (some p) new none
  | stable {old new : ℕ × ℕ × ℕ} (h : coreLess old new = true) : Follows old none new none

theorem allowed_iff {a b : Text} : Allowed a b ↔ ∃ old p new q,
    parseVersion a = .ok (old, p) ∧ parseVersion b = .ok (new, q) ∧ Follows old p new q := by
  unfold Allowed updateAllowed
  constructor
  · intro h
    obtain ⟨⟨old, p⟩, hp, h⟩ := except_bind_eq_ok.mp h
    obtain ⟨⟨new, q⟩, hq, h⟩ := except_bind_eq_ok.mp h
    refine ⟨old, p, new, q, hp, hq, ?_⟩
    cases q with
    | none =>
      cases p with
      | none => exact .stable (by simpa using h)
      | some p => exact .release p (by simpa using h)
    | some q =>
      cases p with
      | none => cases h
      | some p =>
        simp only at h
        split at h
        · rename_i hcore
          obtain ⟨kq, hkq, h⟩ := except_bind_eq_ok.mp h
          obtain ⟨kp, hkp, h⟩ := except_bind_eq_ok.mp h
          rw [hcore]
          exact .prerelease hkp hkq (by simpa using h)
        · cases h
  · rintro ⟨old, p, new, q, hp, hq, hfollows⟩
    rw [hp, hq]
    cases hfollows with
    | prerelease hkp hkq h =>
      show (if _ then _ else _) = _
      rw [if_pos rfl, hkq, hkp]
      exact congrArg Except.ok h
    | release p h => exact congrArg (fun b => Except.ok !b) h
    | stable h => exact congrArg Except.ok h

/-! ### Updates only ascend -/

theorem Follows.irrefl {core : ℕ × ℕ × ℕ} {p : Option Text} : ¬ Follows core p core p := by
  intro h
  cases h with
  | prerelease hp hq h =>
    rw [hp] at hq
    cases hq
    rw [sequenceLess_self] at h
    cases h
  | stable h =>
    rw [coreLess_iff] at h
    omega

/-- A version is followed only by those that follow what follows it. -/
theorem Follows.trans {c₁ c₂ c₃ : ℕ × ℕ × ℕ} {p₁ p₂ p₃ : Option Text}
    (h₁₂ : Follows c₁ p₁ c₂ p₂) (h₂₃ : Follows c₂ p₂ c₃ p₃) : Follows c₁ p₁ c₃ p₃ := by
  cases h₁₂ with
  | prerelease hp hq h =>
    cases h₂₃ with
    | prerelease hq' hr h' =>
      -- both keys of the pre-release in the middle are its key
      rw [hq] at hq'
      cases hq'
      refine .prerelease hp hr ?_
      rw [prereleaseKey_less hp hq] at h
      rw [prereleaseKey_less hq hr] at h'
      rw [prereleaseKey_less hp hr]
      exact List.lex_trans (fun hij hjk => hij.trans hjk) h h'
    | release q h' => exact .release _ h'
  | release p h =>
    cases h₂₃ with
    | stable h' =>
      refine .release p ?_
      rw [coreLess_iff] at h'
      rw [← Bool.not_eq_true, coreLess_iff] at h ⊢
      omega
  | stable h =>
    cases h₂₃ with
    | stable h' =>
      refine .stable ?_
      rw [coreLess_iff] at h h' ⊢
      omega

theorem Allowed.trans {a b c : Text} (hab : Allowed a b) (hbc : Allowed b c) : Allowed a c := by
  obtain ⟨c₁, p₁, c₂, p₂, ha, hb, h₁₂⟩ := allowed_iff.mp hab
  obtain ⟨c₂', p₂', c₃, p₃, hb', hc, h₂₃⟩ := allowed_iff.mp hbc
  rw [hb] at hb'
  cases hb'
  exact allowed_iff.mpr ⟨c₁, p₁, c₃, p₃, ha, hc, h₁₂.trans h₂₃⟩

theorem Allowed.irrefl (a : Text) : ¬ Allowed a a := by
  intro h
  obtain ⟨c, p, c', p', ha, ha', hfollows⟩ := allowed_iff.mp h
  rw [ha] at ha'
  cases ha'
  exact hfollows.irrefl

/-- A chain of updates could have been one. -/
theorem allowed_of_chain {a b : Text} (h : Relation.TransGen Allowed a b) : Allowed a b := by
  induction h with
  | single h => exact h
  | tail _ hbc ih => exact ih.trans hbc

theorem parseVersion_eq {version : Text} {core : ℕ × ℕ × ℕ} {pre : Option Text}
    (h : parseVersion version = .ok (core, pre)) : ∃ g, matchVersion version = some g ∧
      core = (Text.number g.major, Text.number g.minor, Text.number g.patch) ∧ pre = g.pre := by
  unfold parseVersion at h
  split at h
  · cases h
  · rename_i g hg
    obtain ⟨major, hmajor, h⟩ := except_bind_eq_ok.mp h
    obtain ⟨minor, hminor, h⟩ := except_bind_eq_ok.mp h
    obtain ⟨patch, hpatch, h⟩ := except_bind_eq_ok.mp h
    cases h
    exact ⟨g, hg, by rw [pythonInt_eq hmajor, pythonInt_eq hminor, pythonInt_eq hpatch], rfl⟩

theorem Follows.inv {old new : ℕ × ℕ × ℕ} {p q : Option Text} (h : Follows old p new q) :
    (∃ p' q', p = some p' ∧ q = some q' ∧ old = new ∧
        List.Lex Identifier.Below (identifiers p') (identifiers q')) ∨
      (∃ p', p = some p' ∧ q = none ∧ coreLess new old = false) ∨
      (p = none ∧ q = none ∧ coreLess old new = true) := by
  cases h with
  | prerelease hp hq h => exact .inl ⟨_, _, rfl, rfl, rfl, (prereleaseKey_less hp hq).mp h⟩
  | release p h => exact .inr (.inl ⟨p, rfl, rfl, h⟩)
  | stable h => exact .inr (.inr ⟨rfl, rfl, h⟩)

/-- What follows a version is higher in the sense of semantic versioning. -/
theorem Allowed.precedes {a b : Text} (h : Allowed a b) : ∃ va ∈ semVerOf a, ∃ vb ∈ semVerOf b,
    va.Precedes vb ∧ (va.pre = none → vb.pre = none) := by
  obtain ⟨old, p, new, q, hp, hq, hfollows⟩ := allowed_iff.mp h
  obtain ⟨ga, hga, rfl, rfl⟩ := parseVersion_eq hp
  obtain ⟨gb, hgb, rfl, rfl⟩ := parseVersion_eq hq
  refine ⟨ga.semVer, by simp [semVerOf, hga], gb.semVer, by simp [semVerOf, hgb], ?_⟩
  have hprea : ga.semVer.pre = ga.pre.map identifiers := rfl
  have hpreb : gb.semVer.pre = gb.pre.map identifiers := rfl
  unfold SemVer.Precedes
  rw [hprea, hpreb]
  obtain ⟨p, q, hpa, hqb, hcore, hlex⟩ | ⟨p, hpa, hqb, hcore⟩ | ⟨hpa, hqb, hcore⟩ := hfollows.inv
  · rw [hpa, hqb]
    simp only [Prod.mk.injEq] at hcore
    exact ⟨.inr ⟨hcore, .earlier hlex⟩, fun hnone => absurd hnone (by simp)⟩
  · rw [hpa, hqb]
    rw [← Bool.not_eq_true, coreLess_iff] at hcore
    refine ⟨?_, fun _ => rfl⟩
    by_cases hsame : ga.semVer.SameCore gb.semVer
    · exact .inr ⟨hsame, .release _⟩
    · refine .inl ?_
      simp only at hcore
      unfold SemVer.CoreBelow
      unfold SemVer.SameCore at hsame
      simp only [Groups.semVer] at hsame ⊢
      omega
  · rw [hpa, hqb]
    rw [coreLess_iff] at hcore
    exact ⟨.inl hcore, fun _ => rfl⟩

/-- Two pre-releases of one version are in the order of their identifiers. -/
theorem SemVer.precedes_of_sameCore {a b : SemVer} (hcore : a.SameCore b) {p q : List Identifier}
    (hp : a.pre = some p) (hq : b.pre = some q) :
    a.Precedes b ↔ List.Lex Identifier.Below p q := by
  unfold Precedes
  rw [hp, hq]
  constructor
  · rintro (hbelow | ⟨-, hpre⟩)
    · unfold CoreBelow at hbelow
      unfold SameCore at hcore
      omega
    · cases hpre with
      | earlier h => exact h
  · exact fun h => .inr ⟨hcore, .earlier h⟩

theorem SemVer.eq_of_sameCore {a b : SemVer} (hcore : a.SameCore b) :
    a = b ↔ a.pre = b.pre := by
  obtain ⟨hmajor, hminor, hpatch⟩ := hcore
  cases a
  cases b
  simp_all

/-- A chain of updates does not come back, and leads to a higher version. -/
theorem chain_ascends {a b : Text} (h : Relation.TransGen Allowed a b) : a ≠ b ∧
    ∃ va ∈ semVerOf a, ∃ vb ∈ semVerOf b, va.Precedes vb ∧ (va.pre = none → vb.pre = none) := by
  have hab := allowed_of_chain h
  exact ⟨fun heq => Allowed.irrefl b (heq ▸ hab), hab.precedes⟩

/-- The keys order the pre-releases of one version by precedence. -/
theorem prereleaseKey_precedes {ga gb : Groups} {p q : Text} {kp kq : List (ℕ × ℕ × Text)}
    (hcore : ga.semVer.SameCore gb.semVer) (hp : ga.pre = some p) (hq : gb.pre = some q)
    (hkp : prereleaseKey p = .ok kp) (hkq : prereleaseKey q = .ok kq) :
    (sequenceLess partLess kp kq = true ↔ ga.semVer.Precedes gb.semVer) ∧
      (kp = kq ↔ ga.semVer = gb.semVer) := by
  have hpa : ga.semVer.pre = some (identifiers p) := congrArg (Option.map identifiers) hp
  have hqb : gb.semVer.pre = some (identifiers q) := congrArg (Option.map identifiers) hq
  rw [SemVer.precedes_of_sameCore hcore hpa hqb, SemVer.eq_of_sameCore hcore, hpa, hqb,
    Option.some.injEq]
  exact ⟨prereleaseKey_less hkp hkq, prereleaseKey_same hkp hkq⟩

/-- An allowed update goes from a version to one of strictly higher precedence. It is
    a strict order, so no chain of updates comes back to a version or to one that is
    not higher, and none leads from a stable version to a pre-release. The keys order
    the pre-releases of a version by precedence; only a number of more than 4300
    digits keeps a pre-release from having one. -/
theorem updates_ascend :
    (∀ a b, Allowed a b → ∃ va ∈ semVerOf a, ∃ vb ∈ semVerOf b, va.Precedes vb) ∧
    (∀ a, ¬ Allowed a a) ∧
    (∀ a b c, Allowed a b → Allowed b c → Allowed a c) ∧
    (∀ a b, Relation.TransGen Allowed a b → a ≠ b ∧
      ∃ va ∈ semVerOf a, ∃ vb ∈ semVerOf b, va.Precedes vb ∧ (va.pre = none → vb.pre = none)) ∧
    (∀ a b ga gb p q kp kq, matchVersion a = some ga → matchVersion b = some gb →
      ga.semVer.SameCore gb.semVer → ga.pre = some p → gb.pre = some q →
      prereleaseKey p = .ok kp → prereleaseKey q = .ok kq →
      (sequenceLess partLess kp kq = true ↔ ga.semVer.Precedes gb.semVer) ∧
      (kp = kq ↔ ga.semVer = gb.semVer)) ∧
    ∀ pre, (∀ part ∈ Text.split '.' pre, isDigits part = true → part.length ≤ maxDigits) →
      ∃ key, prereleaseKey pre = .ok key := by
  refine ⟨fun a b h => ?_, Allowed.irrefl, fun a b c => Allowed.trans, fun a b => chain_ascends,
    fun a b ga gb p q kp kq _ _ => prereleaseKey_precedes, fun pre => prereleaseKey_ok⟩
  obtain ⟨va, hva, vb, hvb, hprecedes, -⟩ := h.precedes
  exact ⟨va, hva, vb, hvb, hprecedes⟩

example : updateAllowed "v1.0.0-rc.9".toList "v1.0.0-rc.10".toList = .ok true := by decide

end Pgfy.Deploy
