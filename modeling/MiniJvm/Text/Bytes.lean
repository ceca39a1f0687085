/-!
# Byte strings

Names, messages and source text are byte strings: they may hold bytes that form no UTF-8
character, and every length, offset and column counts bytes. A string literal stands for its
UTF-8 bytes.
-/

namespace MiniJvm

abbrev Bytes := List UInt8

namespace Bytes

def ofString (s : String) : Bytes := s.toList.flatMap String.utf8EncodeChar

instance : Coe String Bytes := ⟨ofString⟩

/-- Decimal digits of a number, without leading zeros. -/
def ofNat (n : Nat) : Bytes := (Nat.toDigits 10 n).map fun c => c.toNat.toUInt8

/-- Decimal digits of an integer after its minus sign. -/
def ofInt : Int → Bytes
  | .ofNat n => ofNat n
  | .negSucc n => "-" ++ ofNat (n + 1)

/-- The text `s` with zeros in front up to `width` bytes. -/
def zeroPad (width : Nat) (s : Bytes) : Bytes := List.replicate (width - s.length) 48 ++ s

def hexDigit (n : Nat) : UInt8 := if n < 10 then (48 + n).toUInt8 else (87 + n).toUInt8

def upperHexDigit (n : Nat) : UInt8 := if n < 10 then (48 + n).toUInt8 else (55 + n).toUInt8

/-- The lowest `digits` hexadecimal digits of `n`, most significant first. -/
def hexOf : Nat → Nat → Bytes
  | 0, _ => []
  | digits + 1, n => hexOf digits (n / 16) ++ [hexDigit (n % 16)]

/-- A byte as two upper-case hexadecimal digits. -/
def upperHex (b : UInt8) : Bytes := [upperHexDigit (b.toNat / 16), upperHexDigit (b.toNat % 16)]

/-- Two lower-case hexadecimal digits for each byte. -/
def hex (s : Bytes) : Bytes :=
  s.flatMap fun b => [hexDigit (b.toNat / 16), hexDigit (b.toNat % 16)]

/-- Byte order, shorter first among strings that agree. -/
def le : Bytes → Bytes → Bool
  | [], _ => true
  | _ :: _, [] => false
  | a :: s, b :: t => a < b || (a == b && le s t)

def sort (xs : List Bytes) : List Bytes := xs.mergeSort le

/-- The strings one after another with `sep` between neighbours. -/
def join (sep : Bytes) : List Bytes → Bytes
  | [] => []
  | [s] => s
  | s :: t :: rest => s ++ sep ++ join sep (t :: rest)

/-- The text `s` without the given bytes at its end. -/
def trimRight (drop : UInt8 → Bool) (s : Bytes) : Bytes := (s.reverse.dropWhile drop).reverse

/-- The text `s` without the given bytes at both ends. -/
def trim (drop : UInt8 → Bool) (s : Bytes) : Bytes := trimRight drop (s.dropWhile drop)

/-- The parts of `s` between bytes `sep`; there is one more of them than there are separators. -/
def splitOn (sep : UInt8) (s : Bytes) : List Bytes :=
  let step (b : UInt8) (parts : Bytes × List Bytes) : Bytes × List Bytes :=
    if b = sep then ([], parts.1 :: parts.2) else (b :: parts.1, parts.2)
  let parts := s.foldr step ([], [])
  parts.1 :: parts.2

/-- What stands before and after the first byte `sep`. -/
def cut? (sep : UInt8) (s : Bytes) : Option (Bytes × Bytes) :=
  match s.dropWhile (· != sep) with
  | [] => none
  | _ :: rest => some (s.takeWhile (· != sep), rest)

/-- The first `n` bytes and the rest, if there are so many. -/
def split? : Nat → Bytes → Option (Bytes × Bytes)
  | 0, s => some ([], s)
  | _ + 1, [] => none
  | n + 1, b :: s => (split? n s).map fun (front, rest) => (b :: front, rest)

/-- The last `count` bytes of a number, the highest first. -/
def bigEndian : Nat → Nat → Bytes
  | 0, _ => []
  | count + 1, n => bigEndian count (n / 256) ++ [(n % 256).toUInt8]

/-- The number with the given bytes, the highest first. -/
def number (bytes : Bytes) : Nat := bytes.foldl (fun n b => n * 256 + b.toNat) 0

def lower (b : UInt8) : UInt8 := if 65 ≤ b ∧ b ≤ 90 then b + 32 else b

end Bytes

end MiniJvm
