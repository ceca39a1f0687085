import MiniJvm.Pool.Basic

/-!
# Reading class files

Class files are read front to back; numbers have their highest byte first. Fields, attributes
other than `Code`, exception tables and whatever follows the class are skipped. An error says
where in the class the reading stood.

The part of a class file that can be run: versions, flags, the constant pool, names and methods
with their code bytes.
-/

namespace MiniJvm

structure CodeBody where
  maxStack : UInt16
  maxLocals : UInt16
  bytes : Bytes
  deriving DecidableEq, Repr

structure MethodInfo where
  access : UInt16
  name : Bytes
  descriptor : Bytes
  /-- The body; abstract and native methods have none. -/
  code : Option CodeBody
  deriving DecidableEq, Repr

structure ClassFile where
  minor : UInt16
  major : UInt16
  pool : Pool
  access : UInt16
  name : Bytes
  /-- The name of the super class; empty when there is none. -/
  superName : Bytes
  interfaces : List Bytes
  methods : List MethodInfo
  deriving DecidableEq, Repr

/-- The key of a method: `Class.name:descriptor`. -/
def signature (owner name descriptor : Bytes) : Bytes := owner ++ "." ++ name ++ ":" ++ descriptor

def ClassFile.signature (c : ClassFile) (m : MethodInfo) : Bytes :=
  MiniJvm.signature c.name m.name m.descriptor

end MiniJvm

/-! ## Reading class files -/

namespace MiniJvm.ClassFile

open Bytes (number split?)

inductive Cause where
  | badMagic
  /-- The bytes end too early; the offset is where the missing item starts. -/
  | endOfData (offset : Nat)
  | unknownTag (tag : UInt8) (index : Nat)
  | constant (error : Pool.ResolveError)
  deriving DecidableEq, Repr

inductive Place where
  | constantPool
  | thisClass
  | superClass
  | interface (index : Nat)
  | field (index : Nat)
  | method (index : Nat)
  | name
  | descriptor
  | attributeName
  | code (owner : Bytes)
  | classAttributes
  deriving DecidableEq, Repr

structure ReadError where
  places : List Place
  cause : Cause
  deriving DecidableEq, Repr

def Cause.message : Cause → Bytes
  | .badMagic => "invalid magic number: expected 0xCAFEBABE"
  | .endOfData offset => "unexpected end of class data at byte " ++ Bytes.ofNat offset
  | .unknownTag tag index =>
    "unknown constant pool tag " ++ Bytes.ofNat tag.toNat ++ " at index " ++ Bytes.ofNat index
  | .constant error => error.message

def Place.label : Place → Bytes
  | .constantPool => "constant pool"
  | .thisClass => "this_class"
  | .superClass => "super_class"
  | .interface index => "interface " ++ Bytes.ofNat index
  | .field index => "field " ++ Bytes.ofNat index
  | .method index => "method " ++ Bytes.ofNat index
  | .name => "name"
  | .descriptor => "descriptor"
  | .attributeName => "attribute name"
  | .code owner => owner ++ " Code"
  | .classAttributes => "class attributes"

def ReadError.message (e : ReadError) : Bytes :=
  let places : Bytes := e.places.flatMap fun p => p.label ++ (": " : Bytes)
  places ++ e.cause.message

/-- The bytes that are left and how many were read before them. -/
structure Cursor where
  rest : Bytes
  offset : Nat
  deriving DecidableEq, Repr

abbrev Reader := StateT Cursor (Except ReadError)

def fail {α : Type} (cause : Cause) : Reader α := fun _ => .error ⟨[], cause⟩

def within {α : Type} (place : Place) (step : Reader α) : Reader α := fun c =>
  match step c with
  | .ok r => .ok r
  | .error e => .error { e with places := place :: e.places }

def take (n : Nat) : Reader Bytes := fun c =>
  match split? n c.rest with
  | some (front, rest) => .ok (front, ⟨rest, c.offset + n⟩)
  | none => .error ⟨[], .endOfData c.offset⟩

def u1 : Reader UInt8 := return (number (← take 1)).toUInt8

def u2 : Reader UInt16 := return (number (← take 2)).toUInt16

def u4 : Reader UInt32 := return (number (← take 4)).toUInt32

def u8 : Reader UInt64 := return (number (← take 8)).toUInt64

def lookUp {α : Type} (place : Place) (r : Except Pool.ResolveError α) : Reader α :=
  match r with
  | .ok a => return a
  | .error e => within place (fail (.constant e))

/-- Does a step for each index below `count` from `index` on. -/
def times {α : Type} (step : Nat → Reader α) : Nat → Nat → Reader (List α)
  | 0, _ => return []
  | count + 1, index => do
    let a ← step index
    return a :: (← times step count (index + 1))

def constant (index : Nat) : Reader Entry := do
  let tag ← u1
  match Tag.ofByte? tag with
  | some .utf8 => return .utf8 (← take (← u2).toNat)
  | some .integer => return .integer (← u4).toInt32
  | some .float => return .single (.ofSingle (← u4))
  | some .long => return .long (← u8).toInt64
  | some .double => return .double (.ofBits (← u8))
  | some .classRef | some .stringRef | some .methodType | some .module | some .package =>
    return { tag, index1 := ← u2 }
  | some .fieldRef | some .methodRef | some .interfaceMethodRef | some .nameAndType
  | some .dynamic | some .invokeDynamic =>
    let index1 ← u2
    let index2 ← u2
    return { tag, index1, index2 }
  | some .methodHandle =>
    let kind ← u1
    let index1 ← u2
    return { tag, index1, kind }
  | some .placeholder | none => fail (.unknownTag tag index)

/-- Constants for `slots` slots from slot `index` on. A wide constant takes a second slot, also
where none is left. -/
def constants : Nat → Nat → Reader (List Entry)
  | 0, _ => return []
  | slots + 1, index => do
    let e ← constant index
    if e.isWide then
      match slots with
      | 0 => return [e, .placeholder]
      | slots + 1 => return e :: .placeholder :: (← constants slots (index + 2))
    else return e :: (← constants slots (index + 1))

/-- The constant pool; its count includes slot 0. -/
def readPool : Reader Pool := do
  let count ← u2
  let entries ← constants (count.toNat - 1) 1
  return ⟨(Entry.placeholder :: entries).toArray⟩

/-- Skips one attribute without looking at its name. -/
def skipAttribute : Reader Unit := do
  let _ ← u2
  let length ← u4
  let _ ← take length.toNat

def skipAttributes : Reader Unit := do
  let count ← u2
  let _ ← times (fun _ => skipAttribute) count.toNat 0

def codeBody : Reader CodeBody := do
  let maxStack ← u2
  let maxLocals ← u2
  let length ← u4
  let bytes ← take length.toNat
  let handlers ← u2
  let _ ← take (handlers.toNat * 8)
  skipAttributes
  return { maxStack, maxLocals, bytes }

/-- Reads the body of an attribute on its own, with offsets from its start. -/
def inBody {α : Type} (step : Reader α) (body : Bytes) : Reader α := fun c =>
  match step ⟨body, 0⟩ with
  | .ok (a, _) => .ok (a, c)
  | .error e => .error e

/-- One attribute of a method: its code, if it is a `Code` attribute. -/
def methodAttribute (pool : Pool) (method : Bytes) : Reader (Option CodeBody) := do
  let nameIndex ← u2
  let name ← lookUp .attributeName (pool.utf8 nameIndex)
  let length ← u4
  let body ← take length.toNat
  if name = ("Code" : Bytes) then
    return some (← within (.code method) (inBody codeBody body))
  else return none

def lastCode (codes : List (Option CodeBody)) : Option CodeBody :=
  codes.foldl (fun code c => c <|> code) none

def readMethod (pool : Pool) : Reader MethodInfo := do
  let access ← u2
  let nameIndex ← u2
  let name ← lookUp .name (pool.utf8 nameIndex)
  let descriptorIndex ← u2
  let descriptor ← lookUp .descriptor (pool.utf8 descriptorIndex)
  let count ← u2
  let codes ← times (fun _ => methodAttribute pool name) count.toNat 0
  return { access, name, descriptor, code := lastCode codes }

/-- The super class; index 0 means none. -/
def readSuper (pool : Pool) : Reader Bytes := do
  let index ← u2
  if index = 0 then return [] else lookUp .superClass (pool.resolve index)

def readInterface (pool : Pool) (i : Nat) : Reader Bytes := do
  let index ← u2
  lookUp (.interface i) (pool.resolve index)

def skipField (i : Nat) : Reader Unit := do
  let _ ← take 6
  within (.field i) skipAttributes

def readClass : Reader ClassFile := do
  let magic ← u4
  if magic != 0xCAFEBABE then fail .badMagic
  let minor ← u2
  let major ← u2
  let pool ← within .constantPool readPool
  let access ← u2
  let thisIndex ← u2
  let name ← lookUp .thisClass (pool.resolve thisIndex)
  let superName ← readSuper pool
  let interfaceCount ← u2
  let interfaces ← times (readInterface pool) interfaceCount.toNat 0
  let fieldCount ← u2
  let _ ← times skipField fieldCount.toNat 0
  let methodCount ← u2
  let methods ← times (fun i => within (.method i) (readMethod pool)) methodCount.toNat 0
  within .classAttributes skipAttributes
  return { minor, major, pool, access, name, superName, interfaces, methods }

def parse (bytes : Bytes) : Except ReadError ClassFile := do
  let (c, _) ← readClass ⟨bytes, 0⟩
  return c

end MiniJvm.ClassFile
