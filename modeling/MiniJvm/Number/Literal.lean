import MiniJvm.Number.Double
import MiniJvm.Text.Bytes

/-!
# Integer literals

A literal is an optional sign and digits. In a free literal the digits may follow a base mark
(`0x`, `0o`, `0b`, or a bare leading `0` for base eight) and single underscores may stand
between digits and after the mark.
-/

namespace MiniJvm.Literal

inductive Failure where
  /-- The text is not of the form of a literal. -/
  | malformed
  /-- The value does not fit. -/
  | outOfRange
  deriving DecidableEq, Repr

def digit? (b : UInt8) : Option Nat :=
  if 48 ≤ b ∧ b ≤ 57 then some (b.toNat - 48)
  else
    let l := Bytes.lower b
    if 97 ≤ l ∧ l ≤ 122 then some (l.toNat - 87) else none

/-- The value of digits in a base, on top of `value`. Underscores are passed over when `grouped`.
The first bad digit or the first digit that exceeds `limit` ends the reading. -/
def digits (base limit : Nat) (grouped : Bool) : Nat → Bytes → Except Failure Nat
  | value, [] => .ok value
  | value, b :: rest =>
    if grouped && b == 95 then digits base limit grouped value rest
    else match digit? b with
      | none => .error .malformed
      | some d =>
        if base ≤ d then .error .malformed
        else if limit < value * base + d then .error .outOfRange
        else digits base limit grouped (value * base + d) rest

/-- The base of a free literal, whether a mark gave it, and the digits after the mark. -/
def splitBase : Bytes → Nat × Bool × Bytes
  | 48 :: m :: d :: rest =>
    if Bytes.lower m = 98 then (2, true, d :: rest)
    else if Bytes.lower m = 111 then (8, true, d :: rest)
    else if Bytes.lower m = 120 then (16, true, d :: rest)
    else (8, true, m :: d :: rest)
  | 48 :: rest => (8, true, rest)
  | s => (10, false, s)

/-- Every underscore has a digit on both sides; a base mark counts as a digit. -/
def wellGrouped : Bool → Bytes → Bool
  | afterDigit, [] => afterDigit
  | afterDigit, b :: rest =>
    if b = 95 then afterDigit && wellGrouped false rest else wellGrouped true rest

/-- Digits without a sign: free, with base marks and underscores, or plain decimal. -/
def unsigned (free : Bool) (limit : Nat) (s : Bytes) : Except Failure Nat :=
  if s.isEmpty then .error .malformed
  else if free then
    let (base, marked, ds) := splitBase s
    match digits base limit true 0 ds with
    | .error e => .error e
    | .ok value =>
      if ds.contains 95 && !wellGrouped marked ds then .error .malformed else .ok value
  else digits 10 limit false 0 s

def splitSign : Bytes → Bool × Bytes
  | 43 :: rest => (false, rest)
  | 45 :: rest => (true, rest)
  | s => (false, s)

/-- A literal whose value fits a signed integer of `bits` bits. -/
def signed (free : Bool) (bits : Nat) (s : Bytes) : Except Failure Int :=
  let (negative, ds) := splitSign s
  match unsigned free (pow2 bits - 1) ds with
  | .error e => .error e
  | .ok n =>
    if negative then if pow2 (bits - 1) < n then .error .outOfRange else .ok (-(n : Int))
    else if pow2 (bits - 1) ≤ n then .error .outOfRange else .ok n

def int64? (s : Bytes) : Option Int := (signed true 64 s).toOption

end MiniJvm.Literal
