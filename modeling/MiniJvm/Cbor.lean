import MiniJvm.Number.Double
import MiniJvm.Text.Bytes
import MiniJvm.Text.Utf8

/-!
# CBOR

The data items of CBOR, and their canonical encoding: shortest heads, definite lengths, and floats
in the narrowest format that holds their value.
-/

namespace MiniJvm.Cbor

open Bytes (bigEndian)

inductive Item where
  | unsigned (n : Nat)
  /-- The number `-1 - n`. -/
  | negative (n : Nat)
  | bytes (data : Bytes)
  /-- Text in the chunks in which it was given. -/
  | text (chunks : List Bytes)
  | array (items : List Item)
  | map (pairs : List (Item × Item))
  | tag (number : Nat) (content : Item)
  /-- A simple value without a meaning of its own. -/
  | simple (n : Nat)
  | bool (b : Bool)
  | null
  | undefined
  | float (value : Double)
  deriving Repr

namespace Item

instance : Inhabited Item := ⟨.null⟩

end Item

/-- The head of an item: its major type and the shortest form of its number. -/
def head (major : Nat) (n : Nat) : Bytes :=
  let first (info : Nat) : UInt8 := (major * 32 + info).toUInt8
  if n < 24 then [first n]
  else if n < 256 then first 24 :: bigEndian 1 n
  else if n < 65536 then first 25 :: bigEndian 2 n
  else if n < 4294967296 then first 26 :: bigEndian 4 n
  else first 27 :: bigEndian 8 n

def encodeFloat (d : Double) : Bytes :=
  match d.narrow? .half with
  | some bits => 0xF9 :: bigEndian 2 bits
  | none =>
    match d.narrow? .single with
    | some bits => 0xFA :: bigEndian 4 bits
    | none => 0xFB :: bigEndian 8 d.bits.toNat

mutual

def Item.encode : Item → Bytes
  | .unsigned n => head 0 n
  | .negative n => head 1 n
  | .bytes data => head 2 data.length ++ data
  | .text chunks => head 3 chunks.flatten.length ++ chunks.flatten
  | .array items => head 4 items.length ++ encodeAll items
  | .map pairs => head 5 pairs.length ++ encodePairs pairs
  | .tag number content => head 6 number ++ content.encode
  | .simple n => head 7 n
  | .bool b => [if b then 0xF5 else 0xF4]
  | .null => [0xF6]
  | .undefined => [0xF7]
  | .float d => encodeFloat d

def encodeAll : List Item → Bytes
  | [] => []
  | i :: rest => i.encode ++ encodeAll rest

def encodePairs : List (Item × Item) → Bytes
  | [] => []
  | p :: rest => encodePair p ++ encodePairs rest

def encodePair : Item × Item → Bytes
  | (key, value) => key.encode ++ value.encode

end

/-! ## Reading CBOR

Reading takes one item that fills all the bytes. Heads need not be shortest and lengths may be
indefinite. Arrays and maps are nested at most 32 deep, with a level for each tag that follows
another, and hold at most 131072 elements or pairs. -/

open Bytes (number split?)

def maxDepth : Nat := 32

/-- The most elements of an array or pairs of a map. -/
def maxElements : Nat := 131072

/-- The head of an item: its major type, its additional information and its number. Indefinite
lengths and breaks have 31 for both. -/
structure Head where
  major : Nat
  info : Nat
  value : Nat
  deriving DecidableEq, Repr

def readHead : Bytes → Option (Head × Bytes)
  | [] => none
  | b :: rest =>
    let major := b.toNat / 32
    let info := b.toNat % 32
    let wide (n : Nat) : Option (Head × Bytes) :=
      (split? n rest).map fun (front, rest) => (⟨major, info, number front⟩, rest)
    if info < 24 then some (⟨major, info, info⟩, rest)
    else if info = 24 then wide 1
    else if info = 25 then wide 2
    else if info = 26 then wide 4
    else if info = 27 then wide 8
    else if info = 31 then some (⟨major, info, 31⟩, rest)
    else none

def repeated {α : Type} (read : Bytes → Option (α × Bytes)) :
    Nat → Bytes → Option (List α × Bytes)
  | 0, s => some ([], s)
  | count + 1, s =>
    match read s with
    | none => none
    | some (a, s) => (repeated read count s).map fun (as, s) => (a :: as, s)

def untilBreak {α : Type} (read : Bytes → Option (α × Bytes)) :
    Nat → Bytes → Option (List α × Bytes)
  | most, s =>
    match s with
    | [] => none
    | b :: rest =>
      if b = 0xFF then some ([], rest)
      else match most with
        | 0 => none
        | most + 1 =>
          match read s with
          | none => none
          | some (a, s) => (untilBreak read most s).map fun (as, s) => (a :: as, s)

def chunk (major : Nat) (s : Bytes) : Option (Bytes × Bytes) :=
  match readHead s with
  | some (h, rest) => if h.major = major && h.info ≠ 31 then split? h.value rest else none
  | none => none

def chunks (h : Head) (s : Bytes) : Option (List Bytes × Bytes) :=
  if h.info = 31 then untilBreak (chunk h.major) s.length s
  else (split? h.value s).map fun (front, rest) => ([front], rest)

def elements (read : Bytes → Option (Item × Bytes)) (h : Head) (s : Bytes) :
    Option (List Item × Bytes) :=
  if h.info = 31 then untilBreak read maxElements s
  else if maxElements < h.value then none
  else repeated read h.value s

def pair (read : Bytes → Option (Item × Bytes)) (s : Bytes) : Option ((Item × Item) × Bytes) := do
  let (k, s) ← read s
  let (v, s) ← read s
  return ((k, v), s)

def pairs (read : Bytes → Option (Item × Bytes)) (h : Head) (s : Bytes) :
    Option (List (Item × Item) × Bytes) :=
  if h.info = 31 then untilBreak (pair read) maxElements s
  else if maxElements < h.value then none
  else repeated (pair read) h.value s

/-- The item of a head of major type 7. -/
def primitive (h : Head) : Option Item :=
  match h.info with
  | 20 => some (.bool false)
  | 21 => some (.bool true)
  | 22 => some .null
  | 23 => some .undefined
  | 24 => if h.value < 32 then none else some (.simple h.value)
  | 25 => some (.float (.widen .half h.value))
  | 26 => some (.float (.widen .single h.value))
  | 27 => some (.float (.ofBits h.value.toUInt64))
  | 31 => none
  | n => some (.simple n)

/-- Reads one item with at most `depth` further levels of nesting. A tag that follows another
costs a level. The fuel counts calls on top of each other. -/
def readItem : Nat → Nat → Bool → Bytes → Option (Item × Bytes)
  | 0, _, _, _ => none
  | fuel + 1, depth, afterTag, s =>
    match readHead s with
    | none => none
    | some (h, rest) =>
      match h.major with
      | 0 => if h.info = 31 then none else some (.unsigned h.value, rest)
      | 1 => if h.info = 31 then none else some (.negative h.value, rest)
      | 2 => (chunks h rest).map fun (cs, rest) => (.bytes cs.flatten, rest)
      | 3 => (chunks h rest).map fun (cs, rest) => (.text cs, rest)
      | 4 =>
        match depth with
        | 0 => none
        | depth + 1 =>
          (elements (readItem fuel depth false) h rest).map fun (items, rest) =>
            (.array items, rest)
      | 5 =>
        match depth with
        | 0 => none
        | depth + 1 =>
          (pairs (readItem fuel depth false) h rest).map fun (ps, rest) =>
            (.map ps, rest)
      | 6 =>
        if h.info = 31 || (afterTag && depth = 0) then none
        else
          (readItem fuel (if afterTag then depth - 1 else depth) true rest).map fun (i, rest) =>
            (.tag h.value i, rest)
      | _ => (primitive h).map fun i => (i, rest)

/-- The item that fills the bytes. A level takes at most two calls: one for what is nested and
one for a tag before it. -/
def decode (s : Bytes) : Option Item :=
  match readItem (2 * maxDepth + 2) maxDepth false s with
  | some (i, []) => some i
  | _ => none

/-- Reads items until the bytes end. An item takes a byte at least, so the fuel may be their
number. -/
def readItems : Nat → Bytes → Option (List Item)
  | _, [] => some []
  | 0, _ :: _ => none
  | fuel + 1, s =>
    match readItem (2 * maxDepth + 2) maxDepth false s with
    | none => none
    | some (i, rest) => (readItems fuel rest).map (i :: ·)

def decodeSequence (s : Bytes) : Option (List Item) := readItems s.length s

/-! ## Filling values from CBOR items

How items become the fields of a record. Null and undefined leave a field at its zero value.
Simple values without a meaning count as unsigned numbers, and a tag gives way to its content
unless it is a bignum or its content is of the wrong type. A record is a map whose keys are field
numbers, or texts with such a number; the first of equal keys counts and other keys do not. -/

/-- The number that bytes write, the highest first, if it has 64 bits at most. -/
def bigNumber? (data : Bytes) : Option Nat :=
  let significant := data.dropWhile (· == 0)
  if 8 < significant.length then none else some (number significant)

def Item.content : Item → Option Item
  | .tag number inner =>
    match number, inner with
    | 0, .text _ => some inner
    | 0, _ => none
    | 1, .unsigned _ | 1, .negative _ | 1, .float _ => some inner
    | 1, _ => none
    | 2, .bytes data => (bigNumber? data).map .unsigned
    | 2, _ => none
    | 3, .bytes data => (bigNumber? data).map .negative
    | 3, _ => none
    | _, inner => inner.content
  | i => some i

/-- An item by what it can fill. -/
inductive Filling where
  | absent
  | integer (n : Int)
  | float (d : Double)
  | text (s : Bytes)
  | array (items : List Item)
  | map (pairs : List (Item × Item))

/-- What an item can fill. -/
def Item.filling (i : Item) : Option Filling :=
  match i.content with
  | some .null | some .undefined => some .absent
  | some (.unsigned n) | some (.simple n) => some (.integer n)
  | some (.negative n) =>
    if n < 9223372036854775808 then some (.integer (-1 - (n : Int))) else none
  | some (.float d) => some (.float d)
  | some (.text chunks) => if chunks.all Utf8.valid then some (.text chunks.flatten) else none
  | some (.array items) => some (.array items)
  | some (.map pairs) => some (.map pairs)
  | _ => none

def fillInt (low high : Int) (i : Item) : Option Int :=
  match i.filling with
  | some .absent => some 0
  | some (.integer n) => if low ≤ n && n ≤ high then some n else none
  | _ => none

def fillUInt8 (i : Item) : Option UInt8 := (fillInt 0 255 i).map fun n => n.toNat.toUInt8

def fillUInt16 (i : Item) : Option UInt16 := (fillInt 0 65535 i).map fun n => n.toNat.toUInt16

def fillInt32 (i : Item) : Option Int32 :=
  (fillInt (-2147483648) 2147483647 i).map Int32.ofInt

def fillInt64 (i : Item) : Option Int64 :=
  (fillInt (-9223372036854775808) 9223372036854775807 i).map Int64.ofInt

/-- A double; integers are rounded to one. -/
def fillDouble (i : Item) : Option Double :=
  match i.filling with
  | some .absent => some .zero
  | some (.integer n) => some (.ofInt n)
  | some (.float d) => some d
  | _ => none

def fillText (i : Item) : Option Bytes :=
  match i.filling with
  | some .absent => some []
  | some (.text s) => some s
  | _ => none

/-- A list; null stands for one that was never given. -/
def fillList {α : Type} (fill : Item → Option α) (i : Item) : Option (Option (List α)) :=
  match i.filling with
  | some .absent => some none
  | some (.array items) => (items.mapM fill).map some
  | _ => none

/-- The field number of a key; a number that no field has for other names. -/
def fieldNumber (key : Item) : Option Int :=
  match key with
  | .unsigned n => some (Int.bmod n 18446744073709551616)
  | .negative n => if n < 9223372036854775808 then some (-1 - (n : Int)) else none
  | .text chunks =>
    if chunks.all Utf8.valid then
      match chunks.flatten with
      | [d] => some (if 48 ≤ d ∧ d ≤ 57 then (d.toNat : Int) - 48 else -1)
      | _ => some (-1)
    else none
  | _ => none

/-- The values of a record by field number, in the order of the map. -/
def fillFields (i : Item) : Option (List (Int × Item)) :=
  match i.filling with
  | some .absent => some []
  | some (.map pairs) => pairs.mapM fun (k, v) => (fieldNumber k).map fun n => (n, v)
  | _ => none

def field {α : Type} (fields : List (Int × Item)) (number : Int) (fill : Item → Option α) :
    Option α :=
  fill ((fields.lookup number).getD .null)

end MiniJvm.Cbor
