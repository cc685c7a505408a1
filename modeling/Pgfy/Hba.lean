import Pgfy.Framework.NetipText
import Pgfy.Postgres.Management

/-! # The managed access rules

    A project's allowlist is normalised, the rules of all projects are rendered
    into one file, and the file is put in force: written, checked by
    PostgreSQL's own parser, loaded, and replaced by the previous one if any of
    this fails. The comment line at the top of the file is left out.
-/

namespace Pgfy

open Calendar Program

/-! ### Addresses -/

def maxAddresses : ℕ := 32

/-- A character in a quoted text; one outside ASCII is taken as printable. -/
def quoteCharacter (c : Char) : Text :=
  match "\x07\x08\x09\x0a\x0b\x0c\x0d".toList.idxOf? c with
  | some i => ['\\', "abtnvfr".toList.getD i 'n']
  | none =>
    if c = '"' ∨ c = '\\' then ['\\', c]
    else if c < ' ' ∨ c = '\x7f' then
      ['\\', 'x', Netip.digitCharacter (c.toNat / 16), Netip.digitCharacter (c.toNat % 16)]
    else [c]

/-- The verb `%q`. -/
def quoted (s : Text) : String := "\"" ++ String.ofList (s.flatMap quoteCharacter) ++ "\""

/-- A range, or a single address. -/
def parseEntry (value : Text) : Option Netip.Prefix :=
  (Netip.parsePrefix value).orElse (fun _ => Netip.parseSingle value)

/-- One address of an allowlist, added to those before it; blanks are skipped
    and so are repetitions. -/
def normalizeStep (out : List String) (raw : String) : Except Err (List String) :=
  let value := Text.trimSpace raw.toList
  if value = [] then .ok out
  else
    match parseEntry value with
    | none => .error (.message (quoted value ++ " is not an IP address or CIDR range"))
    | some entry =>
      let range := entry.masked
      if range.addr.is4In6 then
        .error (.message (quoted value ++ ": write IPv4 addresses without an IPv6 prefix"))
      else if String.ofList range.text ∈ out then .ok out
      else .ok (out ++ [String.ofList range.text])

/-- Validates an allowlist and returns canonical ranges. -/
def normalize (addresses : List String) : Except Err (List String) :=
  if maxAddresses < addresses.length then .error (.message "at most 32 addresses are allowed")
  else addresses.foldlM normalizeStep []

/-! ### The file -/

structure Rule where
  database : Text
  role : Text
  addresses : List String
deriving DecidableEq

/-- The lines of one project: from the tunnel in the clear, from elsewhere with TLS. -/
def Rule.lines (tunnelSource : String) (r : Rule) : List RuleLine :=
  (if tunnelSource ≠ "" then [⟨false, r.database, r.role, tunnelSource⟩] else []) ++
    r.addresses.map (fun a => ⟨true, r.database, r.role, a⟩)

def render (tunnelSource : String) (rules : List Rule) : List RuleLine :=
  (rules.insertionSort (fun a b => a.database ≤ b.database)).flatMap (Rule.lines tunnelSource)

/-- Puts the previous file back. -/
def restoreRules (previous : Option (List RuleLine)) : Go Unit := do
  match previous with
  | some lines => let _ ← Go.attempt (file (.writeRules lines))
  | none => let _ ← Go.attempt (file .removeRules)

/-- Writes the rules, has PostgreSQL check and load them, and restores the
    previous file if anything is rejected. -/
def applyLocked (tunnelSource : String) (rules : List Rule) : Go Instant := do
  let previous ← file .readRules
  file (.writeRules (render tunnelSource rules))
  match ← Go.attempt (Prog.ask .hbaFileErrors) with
  | .error e =>
    restoreRules previous
    Action.fail (.message ("policy could not be validated: " ++ e.text))
  | .ok [] =>
    match ← Go.attempt reload with
    | .error e =>
      restoreRules previous
      Action.fail e
    | .ok loaded => pure loaded
  | .ok problems =>
    restoreRules previous
    Action.fail (.message ("PostgreSQL rejected the policy: " ++ "; ".intercalate problems))

/-- Runs a step under a lock, which is given back however the step ends. -/
def locked {β : Type} (m : Mutex) (x : Go β) : Go β := do
  Action.lift (Prog.ask (.lock m))
  let r ← Go.attempt x
  Action.lift (Prog.ask (.unlock m))
  Go.of r

/-- `Manager.Apply`. -/
def applyRules (tunnelSource : String) (rules : List Rule) : Go Instant :=
  locked .ruleFile (applyLocked tunnelSource rules)

end Pgfy
