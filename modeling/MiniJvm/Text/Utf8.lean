import MiniJvm.Text.Bytes

/-!
# UTF-8

A byte string is read as a sequence of pieces: well-formed characters, and stray bytes that
start none. Over-long forms, surrogates and code points past U+10FFFF are not well formed.
-/

namespace MiniJvm.Utf8

/-- A byte that may follow the first byte of a character. -/
def isTail (b : UInt8) : Bool := 0x80 ≤ b && b ≤ 0xBF

def secondLow (a : UInt8) : UInt8 := if a = 0xE0 then 0xA0 else if a = 0xF0 then 0x90 else 0x80

def secondHigh (a : UInt8) : UInt8 := if a = 0xED then 0x9F else if a = 0xF4 then 0x8F else 0xBF

/-- The character that starts with byte `a` before `rest`: its code point, and how many bytes of
`rest` belong to it. -/
def char? (a : UInt8) (rest : Bytes) : Option (Nat × Nat) :=
  if a < 0x80 then some (a.toNat, 0)
  else if a < 0xC2 then none
  else if a < 0xE0 then
    match rest with
    | b :: _ => if isTail b then some ((a.toNat - 0xC0) * 64 + (b.toNat - 0x80), 1) else none
    | _ => none
  else if a < 0xF0 then
    match rest with
    | b :: c :: _ =>
      if secondLow a ≤ b && b ≤ secondHigh a && isTail c then
        some ((a.toNat - 0xE0) * 4096 + (b.toNat - 0x80) * 64 + (c.toNat - 0x80), 2)
      else none
    | _ => none
  else if a < 0xF5 then
    match rest with
    | b :: c :: d :: _ =>
      if secondLow a ≤ b && b ≤ secondHigh a && isTail c && isTail d then
        some ((a.toNat - 0xF0) * 262144 + (b.toNat - 0x80) * 4096 + (c.toNat - 0x80) * 64
          + (d.toNat - 0x80), 3)
      else none
    | _ => none
  else none

/-- Whether what follows `skip` bytes is a sequence of well-formed characters. -/
def validAfter : Nat → Bytes → Bool
  | _, [] => true
  | skip + 1, _ :: rest => validAfter skip rest
  | 0, a :: rest =>
    match char? a rest with
    | some (_, n) => validAfter n rest
    | none => false

/-- Whether the bytes are a sequence of well-formed characters. -/
def valid (s : Bytes) : Bool := validAfter 0 s

/-- A unit of a byte string read as UTF-8. -/
inductive Piece where
  /-- A well-formed character, by its code point. -/
  | char (code : Nat)
  /-- A byte that starts no well-formed character. -/
  | stray (byte : UInt8)
  deriving DecidableEq, Repr

def piecesAfter : Nat → Bytes → List Piece
  | _, [] => []
  | skip + 1, _ :: rest => piecesAfter skip rest
  | 0, a :: rest =>
    match char? a rest with
    | some (code, n) => .char code :: piecesAfter n rest
    | none => .stray a :: piecesAfter 0 rest

def pieces (s : Bytes) : List Piece := piecesAfter 0 s

/-- How many pieces follow `skip` bytes, added to `n`. -/
def countAfter (n : Nat) : Nat → Bytes → Nat
  | _, [] => n
  | skip + 1, _ :: rest => countAfter n skip rest
  | 0, a :: rest =>
    match char? a rest with
    | some (_, k) => countAfter (n + 1) k rest
    | none => countAfter (n + 1) 0 rest

/-- The number of pieces: the width of a text in a column. -/
def count (s : Bytes) : Nat := countAfter 0 0 s

def encode (code : Nat) : Bytes :=
  if code < 0x80 then [code.toUInt8]
  else if code < 0x800 then [(0xC0 + code / 64).toUInt8, (0x80 + code % 64).toUInt8]
  else if code < 0x10000 then
    [(0xE0 + code / 4096).toUInt8, (0x80 + code / 64 % 64).toUInt8, (0x80 + code % 64).toUInt8]
  else
    [(0xF0 + code / 262144).toUInt8, (0x80 + code / 4096 % 64).toUInt8,
      (0x80 + code / 64 % 64).toUInt8, (0x80 + code % 64).toUInt8]

/-- The text `s` with blanks after it up to `width` pieces. -/
def padRight (width : Nat) (s : Bytes) : Bytes := s ++ List.replicate (width - count s) 32

/-- The text `s` with blanks before it up to `width` pieces. -/
def padLeft (width : Nat) (s : Bytes) : Bytes := List.replicate (width - count s) 32 ++ s

end MiniJvm.Utf8

/-! ## Blank characters

The characters with the Unicode property White_Space, and texts without them at their ends. -/

namespace MiniJvm.Blank

def ranges : List (Nat × Nat) :=
  [(0x09, 0x0D), (0x20, 0x20), (0x85, 0x85), (0xA0, 0xA0), (0x1680, 0x1680), (0x2000, 0x200A),
    (0x2028, 0x2029), (0x202F, 0x202F), (0x205F, 0x205F), (0x3000, 0x3000)]

def isBlank (code : Nat) : Bool := ranges.any fun r => r.1 ≤ code && code ≤ r.2

def isBlankPiece : Utf8.Piece → Bool
  | .char code => isBlank code
  | .stray _ => false

def bytesOf : Utf8.Piece → Bytes
  | .char code => Utf8.encode code
  | .stray byte => [byte]

def trim (s : Bytes) : Bytes :=
  let pieces := (Utf8.pieces s).dropWhile isBlankPiece
  ((pieces.reverse.dropWhile isBlankPiece).reverse).flatMap bytesOf

end MiniJvm.Blank
