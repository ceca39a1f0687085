import MiniJvm.Number.Literal
import MiniJvm.Number.Double
import MiniJvm.Text.Utf8

/-!
# TOML scalars

Strings in their four forms, numbers, dates and words. Each reader takes the text from the first
byte of the scalar and gives the value with what follows it.

What a TOML text says: a table of values under keys. An array of tables that was opened by headings
is kept apart from an array that was written as a value, because only the first can grow.
-/

namespace MiniJvm.Toml

inductive Value where
  | text (s : Bytes)
  | int (n : Int)
  /-- A number with a fraction or an exponent, as it was written. -/
  | float (literal : Bytes)
  | bool (b : Bool)
  /-- A date, a time of day or both, as it was written. -/
  | moment (literal : Bytes)
  | array (items : List Value)
  | table (entries : List (Bytes × Value))
  /-- The tables under headings of one name, the oldest first. -/
  | tables (items : List (List (Bytes × Value)))
  deriving Repr

abbrev Entries := List (Bytes × Value)

namespace Entries

def get? (entries : Entries) (key : Bytes) : Option Value :=
  (entries.find? fun e => e.1 == key).map Prod.snd

/-- The entries with a value under a key, in its old place if it has one. -/
def put (entries : Entries) (key : Bytes) (value : Value) : Entries :=
  if (entries.get? key).isSome then entries.map fun e => if e.1 == key then (key, value) else e
  else entries ++ [(key, value)]

end Entries

namespace Value

def text? : Value → Option Bytes
  | .text s => some s
  | _ => none

def bool? : Value → Option Bool
  | .bool b => some b
  | _ => none

def int? : Value → Option Int
  | .int n => some n
  | _ => none

def int32? (v : Value) : Option Int32 :=
  v.int?.bind fun n => if -2147483648 ≤ n ∧ n ≤ 2147483647 then some (Int32.ofInt n) else none

def entries? : Value → Option Entries
  | .table entries => some entries
  | _ => none

/-- The items of an array of either kind. -/
def items? : Value → Option (List Value)
  | .array items => some items
  | .tables items => some (items.map .table)
  | _ => none

/-- The items of an array that are all of one kind. -/
def list? {α : Type} (item? : Value → Option α) (v : Value) : Option (List α) :=
  v.items?.bind fun items => items.mapM item?

end Value

/-- A letter as keys are compared: case does not count, and two letters outside ASCII count as the
letters that they are variants of. -/
def foldLetter : Utf8.Piece → Utf8.Piece
  | .char 0x17F => .char 115
  | .char 0x212A => .char 107
  | .char code => .char (if 65 ≤ code ∧ code ≤ 90 then code + 32 else code)
  | p => p

/-- Whether a key names a field; the field is given in lower case. -/
def names (key field : Bytes) : Bool := (Utf8.pieces key).map foldLetter == Utf8.pieces field

/-! ## TOML scalars -/

def isDigit (b : UInt8) : Bool := 48 ≤ b && b ≤ 57

def isBlank (b : UInt8) : Bool := b == 32 || b == 9

/-- A carriage return only stands before a line feed, so either ends a line. -/
def isNewline (b : UInt8) : Bool := b == 10 || b == 13

def hexValue? (b : UInt8) : Option Nat := (Literal.digit? b).filter (· < 16)

def hexNumber? (digits : Bytes) : Option Nat :=
  digits.foldlM (fun n b => (hexValue? b).map (n * 16 + ·)) 0

/-- The bytes of an escaped code point; surrogates and larger numbers have none. -/
def codePoint? (digits : Bytes) : Option Bytes :=
  (hexNumber? digits).bind fun code =>
    if code < 0xD800 || (0xDFFF < code && code < 0x110000) then some (Utf8.encode code) else none

/-- An escape of `count` hexadecimal digits: its bytes and its length after the backslash. -/
def numericEscape? (count : Nat) (rest : Bytes) : Option (Bytes × Nat) :=
  if rest.length < count then none
  else (codePoint? (rest.take count)).map (·, count + 1)

/-- An escape after its backslash: what it stands for and its length. -/
def escape? : Bytes → Option (Bytes × Nat)
  | 98 :: _ => some ([8], 1)
  | 116 :: _ => some ([9], 1)
  | 110 :: _ => some ([10], 1)
  | 102 :: _ => some ([12], 1)
  | 114 :: _ => some ([13], 1)
  | 101 :: _ => some ([27], 1)
  | 34 :: _ => some ([34], 1)
  | 92 :: _ => some ([92], 1)
  | 120 :: rest => numericEscape? 2 rest
  | 117 :: rest => numericEscape? 4 rest
  | 85 :: rest => numericEscape? 8 rest
  | _ => none

/-- How many bytes a backslash at the end of a line takes with it: all blanks and newlines up to
the next visible byte. -/
def lineJoin? (rest : Bytes) : Option Nat :=
  let gap := rest.takeWhile fun b => isBlank b || isNewline b
  if gap.contains 10 then some gap.length else none

/-- The text with its escapes replaced, after `skip` bytes. -/
def unescapeAfter (joinLines : Bool) : Nat → Bytes → Option Bytes
  | _, [] => some []
  | skip + 1, _ :: rest => unescapeAfter joinLines skip rest
  | 0, 92 :: rest =>
    match if joinLines then lineJoin? rest else none with
    | some n => unescapeAfter joinLines n rest
    | none =>
      match escape? rest with
      | some (bytes, n) => (unescapeAfter joinLines n rest).map (bytes ++ ·)
      | none => none
  | 0, b :: rest => (unescapeAfter joinLines 0 rest).map (b :: ·)

/-- The raw text up to the closing double quote; a backslash hides the byte after it. -/
def scanBasic : Bytes → Option (Bytes × Bytes)
  | [] => none
  | 34 :: rest => some ([], rest)
  | 92 :: b :: rest =>
    if isNewline b then none else (scanBasic rest).map fun r => (92 :: b :: r.1, r.2)
  | b :: rest => if isNewline b then none else (scanBasic rest).map fun r => (b :: r.1, r.2)

def scanLiteral : Bytes → Option (Bytes × Bytes)
  | [] => none
  | 39 :: rest => some ([], rest)
  | b :: rest => if isNewline b then none else (scanLiteral rest).map fun r => (b :: r.1, r.2)

/-- Whether a sixth quote follows five; `seen` is the text before the last three, backwards. An
escaped quote does not count as the first of the five. -/
def tooManyQuotes (quote : UInt8) (escapes : Bool) : Bytes → Bool
  | a :: b :: before => a == quote && b == quote && !(escapes && before.head? == some 92)
  | _ => false

/-- The raw text up to the three closing quotes. Up to two more quotes may stand before them. The
text before is given backwards. -/
def scanMultiline (quote : UInt8) (escapes : Bool) (seen : Bytes) : Bytes → Option (Bytes × Bytes)
  | [] => none
  | b :: rest =>
    if escapes && b == 92 then
      match rest with
      | [] => none
      | c :: after => scanMultiline quote escapes (c :: b :: seen) after
    else if b == quote && rest.take 2 == [quote, quote] then
      if (rest.drop 2).head? == some quote then
        if tooManyQuotes quote escapes seen then none
        else scanMultiline quote escapes (b :: seen) rest
      else some (seen.reverse, rest.drop 2)
    else scanMultiline quote escapes (b :: seen) rest

def dropFirstNewline : Bytes → Bytes
  | 10 :: rest => rest
  | 13 :: 10 :: rest => rest
  | s => s

def basicString (rest : Bytes) : Option (Bytes × Bytes) := do
  let (raw, after) ← scanBasic rest
  return (← unescapeAfter false 0 raw, after)

def string? : Bytes → Option (Bytes × Bytes)
  | 34 :: 34 :: 34 :: rest => do
    let (raw, after) ← scanMultiline 34 true [] rest
    return (← unescapeAfter true 0 (dropFirstNewline raw), after)
  | 34 :: rest => basicString rest
  | 39 :: 39 :: 39 :: rest => do
    let (raw, after) ← scanMultiline 39 false [] rest
    return (dropFirstNewline raw, after)
  | 39 :: rest => scanLiteral rest
  | _ => none

def span (belongs : UInt8 → Bool) (s : Bytes) : Bytes × Bytes :=
  (s.takeWhile belongs, s.dropWhile belongs)

/-- An integer literal: free of leading zeros, and of 64 bits. -/
def integer? (literal : Bytes) : Option Value :=
  let zeroLed : Bool :=
    match (Literal.splitSign literal).2 with
    | 48 :: b :: _ => isDigit b || b == 95
    | _ => false
  if zeroLed then none else (Literal.signed true 64 literal).toOption.map .int

def isDigits (s : Bytes) : Bool :=
  s.all (fun b => isDigit b || b == 95) && Literal.wellGrouped false s

/-- The number that decimal digits write; underscores are passed over. -/
def decimal (s : Bytes) : Nat :=
  s.foldl (fun n b => if isDigit b then n * 10 + (b.toNat - 48) else n) 0

/-- Whether the number with the given digits, times `10 ^ e`, is too large for a double: not below
the middle between the largest double and the next power of two. -/
def tooLarge (digits : Bytes) (e : Int) : Bool :=
  let significant := digits.dropWhile fun b => !isDigit b || b == 48
  let size := (significant.filter isDigit).length + e
  if significant.isEmpty || size < 300 then false
  else if 310 < size then true
  else
    let m := decimal significant
    let limit := pow2 1024 - pow2 970
    if 0 ≤ e then limit ≤ m * pow10 e.toNat else limit * pow10 (-e).toNat ≤ m

/-- The number that the digits of an exponent write; those behind a number of five digits do not
count. -/
def exponentOf (digits : Bytes) : Nat :=
  digits.foldl (fun e b => if isDigit b && e < 10000 then e * 10 + (b.toNat - 48) else e) 0

/-- A float literal: whole digits, then a fraction, an exponent or both. -/
def isFloat (literal : Bytes) : Bool :=
  let (whole, rest) := span (fun b => isDigit b || b == 95) (Literal.splitSign literal).2
  let (fraction, rest) :=
    match rest with
    | 46 :: rest =>
      let (digits, rest) := span (fun b => isDigit b || b == 95) rest
      (some digits, rest)
    | rest => (none, rest)
  let exponent : Option (Option Int) :=
    match rest with
    | [] => some none
    | b :: rest =>
      let (negative, digits) := Literal.splitSign rest
      if Bytes.lower b == 101 && isDigits digits then
        some (some (if negative then -(exponentOf digits : Int) else exponentOf digits))
      else none
  match exponent with
  | none => false
  | some e =>
    let zeroLed := 1 < whole.length && whole.head? == some 48
    let places := (fraction.getD []).filter isDigit
    isDigits whole && !zeroLed && fraction.all isDigits
      && !tooLarge (whole ++ places) (e.getD 0 - places.length)

/-- The number that the first `count` bytes write, if they are digits. -/
def fixed? (count : Nat) (s : Bytes) : Option (Nat × Bytes) :=
  let digits := s.take count
  if digits.length = count && digits.all isDigit then some (decimal digits, s.drop count) else none

def daysIn (year month : Nat) : Nat :=
  let leap := year % 4 = 0 && (year % 100 != 0 || year % 400 = 0)
  if month = 2 then if leap then 29 else 28
  else if month = 4 || month = 6 || month = 9 || month = 11 then 30
  else 31

/-- What follows a date `year-month-day` that exists. -/
def afterDate? (s : Bytes) : Option Bytes := do
  let (year, s) ← fixed? 4 s
  let (month, s) ← fixed? 2 (← if s.head? = some 45 then some s.tail else none)
  let (day, s) ← fixed? 2 (← if s.head? = some 45 then some s.tail else none)
  if 1 ≤ month && month ≤ 12 && 1 ≤ day && day ≤ daysIn year month then some s else none

/-- What follows a time of day; seconds and their fraction may be left out. -/
def afterTime? (s : Bytes) : Option Bytes := do
  let (hour, s) ← fixed? 2 s
  let (minute, s) ← fixed? 2 (← if s.head? = some 58 then some s.tail else none)
  if 24 ≤ hour || 60 ≤ minute then none
  else
    match s with
    | 58 :: s => do
      let (second, s) ← fixed? 2 s
      if 60 ≤ second then none
      else
        match s with
        | 46 :: b :: rest => if isDigit b then some (rest.dropWhile isDigit) else some s
        | s => some s
    | s => some s

/-- Whether the text is an offset from universal time. -/
def isOffset (s : Bytes) : Bool :=
  match s with
  | [90] => true
  | b :: s =>
    let read := do
      let (hours, s) ← fixed? 2 s
      let (minutes, s) ← fixed? 2 (← if s.head? = some 58 then some s.tail else none)
      return s.isEmpty && hours ≤ 24 && minutes ≤ 60
    (b == 43 || b == 45) && read == some true
  | [] => false

/-- Whether a literal is a date, a time of day, or both with or without an offset. -/
def isMoment (literal : Bytes) : Bool :=
  let s := literal.map fun b => if b == 122 then 90 else if b == 116 || b == 32 then 84 else b
  match afterDate? s with
  | some [] => true
  | some (84 :: time) =>
    match afterTime? time with
    | some rest => rest.isEmpty || isOffset rest
    | none => false
  | some _ => false
  | none => afterTime? s == some []

def inMoment (b : UInt8) : Bool :=
  isDigit b || [45, 58, 84, 116, 32, 46, 90, 122, 43].contains b

def inFloat (b : UInt8) : Bool := isDigit b || [95, 46, 45, 43, 101, 69].contains b

def inBase (mark : UInt8) (b : UInt8) : Bool :=
  let base := if mark == 98 then 2 else if mark == 111 then 8 else 16
  b == 95 || (Literal.digit? b).any (· < base)

/-- A decimal number after its sign, if it has one. -/
def decimalNumber? (sign s : Bytes) : Option (Value × Bytes) :=
  let (body, rest) := span (fun b => isDigit b || b == 95) s
  match rest with
  | b :: _ =>
    if b == 46 || b == 101 || b == 69 then
      let (tail, rest) := span inFloat rest
      let literal := sign ++ body ++ tail
      if isFloat literal then some (.float literal, rest) else none
    else (integer? (sign ++ body)).map (·, rest)
  | [] => (integer? (sign ++ body)).map (·, rest)

def numberOrMoment? (s : Bytes) : Option (Value × Bytes) :=
  let marked : Option UInt8 :=
    match s with
    | 48 :: m :: _ => if m == 98 || m == 111 || m == 120 then some m else none
    | _ => none
  match marked with
  | some mark =>
    let (digits, rest) := span (inBase mark) (s.drop 2)
    if digits.head?.all (· == 95) then none else (integer? (s.take 2 ++ digits)).map (·, rest)
  | none =>
    let (digits, rest) := span isDigit s
    if rest.head? == some 45 || rest.head? == some 58 then
      let (tail, rest) := span inMoment rest
      let literal := Bytes.trimRight (· == 32) (digits ++ tail)
      if isMoment literal then some (.moment literal, rest) else none
    else decimalNumber? [] s

def signedNumber? (sign : UInt8) (s : Bytes) : Option (Value × Bytes) :=
  match s with
  | 105 :: 110 :: 102 :: rest => some (.float [sign, 105, 110, 102], rest)
  | 110 :: 97 :: 110 :: rest => some (.float [sign, 110, 97, 110], rest)
  | b :: _ => if isDigit b then decimalNumber? [sign] s else none
  | [] => none

def word? (s : Bytes) : Option (Value × Bytes) :=
  let (word, rest) := span (fun b => 97 ≤ Bytes.lower b && Bytes.lower b ≤ 122) s
  if word = "true" then some (.bool true, rest)
  else if word = "false" then some (.bool false, rest)
  else if word = "inf" || word = "nan" then some (.float word, rest)
  else none

def scalar? (s : Bytes) : Option (Value × Bytes) :=
  match s with
  | [] => none
  | b :: rest =>
    if b == 34 || b == 39 then (string? s).map fun r => (.text r.1, r.2)
    else if isDigit b then numberOrMoment? s
    else if b == 43 || b == 45 then signedNumber? b rest
    else word? s

end MiniJvm.Toml
