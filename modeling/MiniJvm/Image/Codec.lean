import MiniJvm.Cbor
import MiniJvm.Digest
import MiniJvm.Machine.Registry

/-!
# Image encoding

Images and class definitions are written as CBOR records in canonical form, so equal contents have
equal bytes and equal digests. Fields of a record are numbered from one; some are left out when
they are zero.

An image is a set of class definitions with an optional method to start with, as it is stored and
sent.
-/

namespace MiniJvm

structure Image where
  version : UInt8
  /-- The method to start with, or empty. -/
  entry : Bytes
  classes : Option (List ClassDef)
  deriving DecidableEq, Repr

namespace Image

def currentVersion : UInt8 := 1

def ofClasses (entry : Bytes) (classes : Option (List ClassDef)) : Image :=
  ⟨currentVersion, entry, classes⟩

def classList (i : Image) : List ClassDef := i.classes.getD []

end Image

end MiniJvm

/-! ## Image encoding -/

namespace MiniJvm.Image

open Cbor

def itemOfInt (n : Int) : Item :=
  match n with
  | .ofNat n => .unsigned n
  | .negSucc n => .negative n

def itemOfText (s : Bytes) : Item := .text [s]

/-- A list as an item; one that was never given is null. -/
def itemOfList {α : Type} (f : α → Item) : Option (List α) → Item
  | none => .null
  | some items => .array (items.map f)

def present (number : Nat) (i : Item) : List (Item × Item) := [(.unsigned number, i)]

def unlessZero (number : Nat) (zero : Bool) (i : Item) : List (Item × Item) :=
  if zero then [] else present number i

def itemOfInstruction (i : Instruction) : Item :=
  .map (present 1 (.unsigned i.op.byte.toNat) ++ unlessZero 2 (i.a = 0) (itemOfInt i.a.toInt)
    ++ unlessZero 3 (i.b = 0) (itemOfInt i.b.toInt))

def itemOfEntry (e : Entry) : Item :=
  .map (present 1 (.unsigned e.tag.toNat)
    ++ unlessZero 2 (e.index1 = 0) (.unsigned e.index1.toNat)
    ++ unlessZero 3 (e.index2 = 0) (.unsigned e.index2.toNat)
    ++ unlessZero 4 (e.kind = 0) (.unsigned e.kind.toNat)
    ++ unlessZero 5 (e.int = 0) (itemOfInt e.int.toInt)
    ++ unlessZero 6 e.float.isZero (.float e.float)
    ++ unlessZero 7 e.text.isEmpty (itemOfText e.text))

def itemOfMethod (m : MethodDef) : Item :=
  .map (present 1 (itemOfText m.name) ++ present 2 (itemOfText m.descriptor)
    ++ present 3 (itemOfInt m.maxStack.toInt) ++ present 4 (itemOfInt m.maxLocals.toInt)
    ++ present 5 (itemOfList itemOfInstruction m.code))

def itemOfClass (c : ClassDef) : Item :=
  .map (present 1 (itemOfText c.name) ++ unlessZero 2 c.superName.isEmpty (itemOfText c.superName)
    ++ present 3 (itemOfList itemOfEntry c.pool) ++ present 4 (itemOfList itemOfMethod c.methods))

def itemOfImage (i : Image) : Item :=
  .map (present 1 (.unsigned i.version.toNat) ++ unlessZero 2 i.entry.isEmpty (itemOfText i.entry)
    ++ present 3 (itemOfList itemOfClass i.classes))

def instructionOfItem (i : Item) : Option Instruction := do
  let fields ← fillFields i
  return { op := ⟨← field fields 1 fillUInt8⟩, a := ← field fields 2 fillInt32,
           b := ← field fields 3 fillInt32 }

def entryOfItem (i : Item) : Option Entry := do
  let fields ← fillFields i
  return { tag := ← field fields 1 fillUInt8, index1 := ← field fields 2 fillUInt16,
           index2 := ← field fields 3 fillUInt16, kind := ← field fields 4 fillUInt8,
           int := ← field fields 5 fillInt64, float := ← field fields 6 fillDouble,
           text := ← field fields 7 fillText }

def methodOfItem (i : Item) : Option MethodDef := do
  let fields ← fillFields i
  return { name := ← field fields 1 fillText, descriptor := ← field fields 2 fillText,
           maxStack := ← field fields 3 fillInt64, maxLocals := ← field fields 4 fillInt64,
           code := ← field fields 5 (fillList instructionOfItem) }

def classOfItem (i : Item) : Option ClassDef := do
  let fields ← fillFields i
  return { name := ← field fields 1 fillText, superName := ← field fields 2 fillText,
           pool := ← field fields 3 (fillList entryOfItem),
           methods := ← field fields 4 (fillList methodOfItem) }

def imageOfItem (i : Item) : Option Image := do
  let fields ← fillFields i
  return { version := ← field fields 1 fillUInt8, entry := ← field fields 2 fillText,
           classes := ← field fields 3 (fillList classOfItem) }

def marshal (i : Image) : Bytes := (itemOfImage i).encode

def marshalClass (c : ClassDef) : Bytes := (itemOfClass c).encode

inductive ReadError where
  | malformed
  | unsupportedVersion (version : UInt8)
  deriving DecidableEq, Repr

def ReadError.message : ReadError → Bytes
  | .malformed => "image: unmarshal"
  | .unsupportedVersion version =>
    "image: unsupported version " ++ Bytes.ofNat version.toNat

def unmarshal (bytes : Bytes) : Except ReadError Image :=
  match (Cbor.decode bytes).bind imageOfItem with
  | none => .error .malformed
  | some i => if i.version = currentVersion then .ok i else .error (.unsupportedVersion i.version)

def unmarshalClass (bytes : Bytes) : Option ClassDef := (Cbor.decode bytes).bind classOfItem

def malformedClass : Bytes := "image: unmarshal class"

def digest (i : Image) : Bytes := Digest.hex i.marshal

def classDigest (c : ClassDef) : Bytes := Digest.hex (marshalClass c)

structure Summary where
  root : Bytes
  entry : Bytes
  classes : List (Bytes × Bytes)
  deriving DecidableEq, Repr

def summarize (i : Image) : Summary :=
  ⟨i.digest, i.entry, i.classList.map fun c => (c.name, classDigest c)⟩

end MiniJvm.Image
