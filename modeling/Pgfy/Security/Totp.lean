import Pgfy.Store.Schema

/-! # One-time codes

    Codes of an authenticator: HMAC-SHA1 over a counter, cut to six digits, the
    counter being the number of 30-second steps of the clock. The message
    authentication code itself is a parameter.
-/

namespace Pgfy

open Calendar

/-- A keyed hash of a message. -/
abbrev Mac := List UInt8 → List UInt8 → List UInt8

def totpPeriod : ℤ := 30

def totpDigits : ℕ := 6

/-! ### Codes -/

/-- A 64-bit counter as eight bytes, the highest first. -/
def counterBytes (counter : UInt64) : List UInt8 :=
  [56, 48, 40, 32, 24, 16, 8, 0].map (fun shift : UInt64 => (counter >>> shift).toUInt8)

/-- Four bytes from an offset on as one number, the highest first. -/
def word (sum : List UInt8) (offset : ℕ) : UInt32 :=
  (List.range 4).foldl (fun w i => w <<< 8 ||| (sum.getD (offset + i) 0).toUInt32) 0

/-- The code of a counter, by dynamic truncation. -/
def hotp (mac : Mac) (secret : TotpSecret) (counter : UInt64) (digits : ℕ) : Text :=
  let sum := mac secret (counterBytes counter)
  let offset := (sum.getLastD 0 &&& 0x0f).toNat
  let value := word sum offset &&& 0x7fffffff
  let modulus : UInt32 := (List.range digits).foldl (fun m _ => m * 10) 1
  Text.padded digits (value % modulus).toNat

def totpStep (now : Instant) : ℤ := (unix now).tdiv totpPeriod

/-- The code for a given step. -/
def totpCode (mac : Mac) (secret : TotpSecret) (step : ℤ) : Text :=
  hotp mac secret (UInt64.ofInt step) totpDigits

/-- How a code compares with a secret. -/
inductive CodeCheck where
  | wrong
  /-- a correct code of a step that is not newer than the last accepted one -/
  | reused (step : ℤ)
  | valid (step : ℤ)
deriving DecidableEq

/-- Accepts the current step and one either side for clock skew, and only steps
    newer than the last accepted one, so a code works once. -/
def verifyTOTP (mac : Mac) (secret : TotpSecret) (code : Text) (now : Instant) (lastStep : ℤ) :
    CodeCheck :=
  let code := (Text.trimSpace code).filter (· ≠ ' ')
  if Text.byteLength code ≠ totpDigits then .wrong
  else
    let current := totpStep now
    match [current - 1, current, current + 1].find? (fun c => totpCode mac secret c = code) with
    | none => .wrong
    | some candidate => if candidate ≤ lastStep then .reused candidate else .valid candidate

end Pgfy
