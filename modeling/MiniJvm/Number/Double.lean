/-!
# Binary floating point

Interchange formats of IEEE 754 by the widths of their exponent and fraction. A bit pattern is
read as a sign and an integer times a power of two, and a value is written back only where the
format holds it exactly. A double is kept by its bit pattern, so a signed zero and the payload of a
NaN stay what they are.
-/

namespace MiniJvm

@[inline] def pow2 (k : Nat) : Nat := Nat.pow 2 k

@[inline] def pow10 (k : Nat) : Nat := Nat.pow 10 k

end MiniJvm

/-! ## Formats -/

namespace MiniJvm.Binary

inductive Value where
  /-- The number `magnitude * 2 ^ exponent`, with a sign that zero has too. -/
  | finite (negative : Bool) (magnitude : Nat) (exponent : Int)
  | infinite (negative : Bool)
  | nan
  deriving DecidableEq, Repr

structure Format where
  exponentBits : Nat
  fractionBits : Nat
  deriving DecidableEq, Repr

namespace Format

def half : Format := ⟨5, 10⟩

def single : Format := ⟨8, 23⟩

def double : Format := ⟨11, 52⟩

/-- The exponent of one is stored as the bias. -/
def bias (f : Format) : Nat := pow2 (f.exponentBits - 1) - 1

/-- The stored exponent of infinities and NaNs. -/
def topExponent (f : Format) : Nat := pow2 f.exponentBits - 1

/-- The exponent of the last place of the smallest numbers. -/
def leastExponent (f : Format) : Int := 1 - (f.bias : Int) - (f.fractionBits : Int)

def decode (f : Format) (bits : Nat) : Value :=
  let fraction := bits % pow2 f.fractionBits
  let stored := bits / pow2 f.fractionBits % pow2 f.exponentBits
  let negative := bits / pow2 (f.fractionBits + f.exponentBits) % 2 = 1
  if stored = f.topExponent then
    if fraction = 0 then .infinite negative else .nan
  else if stored = 0 then .finite negative fraction f.leastExponent
  else .finite negative (pow2 f.fractionBits + fraction) (f.leastExponent + (stored - 1 : Nat))

/-- The number `magnitude * 2 ^ shift` where that is an integer. -/
def exactShift? (magnitude : Nat) : Int → Option Nat
  | .ofNat k => some (magnitude * pow2 k)
  | .negSucc k =>
    if magnitude % pow2 (k + 1) = 0 then some (magnitude / pow2 (k + 1)) else none

def withSign (f : Format) (negative : Bool) (bits : Nat) : Nat :=
  if negative then pow2 (f.fractionBits + f.exponentBits) + bits else bits

/-- The bit pattern of a value the format holds exactly. -/
def encode? (f : Format) : Value → Option Nat
  | .nan => some (f.topExponent * pow2 f.fractionBits + pow2 (f.fractionBits - 1))
  | .infinite negative => some (f.withSign negative (f.topExponent * pow2 f.fractionBits))
  | .finite negative magnitude exponent =>
    if magnitude = 0 then some (f.withSign negative 0)
    else
      let leading : Int := exponent + (Nat.log2 magnitude : Int)
      if leading > (f.bias : Int) then none
      else
        let last := max (leading - (f.fractionBits : Int)) f.leastExponent
        match exactShift? magnitude (exponent - last) with
        | none => none
        | some m =>
          if m < pow2 f.fractionBits then some (f.withSign negative m)
          else
            let stored := (leading + (f.bias : Int)).toNat
            some (f.withSign negative (stored * pow2 f.fractionBits + (m - pow2 f.fractionBits)))

end Format

/-- The quotient `n / d` to the nearest integer, a half to the even one. -/
def roundHalfEven (n d : Nat) : Nat :=
  let q := n / d
  let r := n % d
  if 2 * r < d then q
  else if 2 * r > d then q + 1
  else if q % 2 = 0 then q else q + 1

end MiniJvm.Binary

/-! ## Doubles -/

namespace MiniJvm

structure Double where
  bits : UInt64
  deriving DecidableEq, Repr

namespace Double

instance : Inhabited Double := ⟨⟨0⟩⟩

def zero : Double := ⟨0⟩

/-- The NaN without a payload. -/
def nan : Double := ⟨0x7FF8000000000000⟩

def value (d : Double) : Binary.Value := Binary.Format.double.decode d.bits.toNat

def isNaN (d : Double) : Bool := d.value = .nan

def isZero (d : Double) : Bool := d.bits = 0 || d.bits = 0x8000000000000000

def ofBits (bits : UInt64) : Double := ⟨bits⟩

/-- A value of a narrower format is a double too; a NaN loses its payload. -/
def widen (f : Binary.Format) (bits : Nat) : Double :=
  match Binary.Format.double.encode? (f.decode bits) with
  | some b => ⟨b.toUInt64⟩
  | none => nan

def ofSingle (bits : UInt32) : Double := widen .single bits.toNat

def narrow? (f : Binary.Format) (d : Double) : Option Nat := f.encode? d.value

def roundNat (n : Nat) : Binary.Value :=
  let extra := Nat.log2 n - 52
  .finite false (Binary.roundHalfEven n (pow2 extra)) extra

/-- The double nearest to an integer. -/
def ofInt (i : Int) : Double :=
  match roundNat i.natAbs with
  | .finite _ m e =>
    match Binary.Format.double.encode? (.finite (decide (i < 0)) m e) with
    | some b => ⟨b.toUInt64⟩
    | none =>
      match Binary.Format.double.encode? (.infinite (decide (i < 0))) with
      | some b => ⟨b.toUInt64⟩
      | none => nan
  | _ => nan

end Double

end MiniJvm
