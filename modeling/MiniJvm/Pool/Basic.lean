import MiniJvm.Number.Double
import MiniJvm.Number.Shortest
import MiniJvm.Text.Bytes
import MiniJvm.Text.Utf8

/-!
# Constant pools

A pool is the constant table of one class, numbered from one; slot 0 is a placeholder.
`Pool.resolve` gives the text of a constant: the text of a Utf8 entry, what a class or string
entry refers to, `name:descriptor`, or `Class.name:descriptor`. References that run in a circle
have no text.

An entry is a tag byte with the fields of all kinds of constants side by side; the tag says which
of them count. Tag bytes outside the known kinds are kept as they are.
-/

namespace MiniJvm

inductive Tag where
  /-- An unused slot. -/
  | placeholder
  /-- A text. -/
  | utf8
  | integer
  | float
  | long
  | double
  /-- A class, by the index of its name. -/
  | classRef
  /-- A string constant, by the index of its text. -/
  | stringRef
  /-- A field, by its class and its name and type. -/
  | fieldRef
  /-- A method, by its class and its name and type. -/
  | methodRef
  /-- A method of an interface. -/
  | interfaceMethodRef
  /-- A name and a descriptor. -/
  | nameAndType
  | methodHandle
  | methodType
  | dynamic
  | invokeDynamic
  | module
  | package
  deriving DecidableEq, Repr

namespace Tag

def byte : Tag → UInt8
  | .placeholder => 0
  | .utf8 => 1
  | .integer => 3
  | .float => 4
  | .long => 5
  | .double => 6
  | .classRef => 7
  | .stringRef => 8
  | .fieldRef => 9
  | .methodRef => 10
  | .interfaceMethodRef => 11
  | .nameAndType => 12
  | .methodHandle => 15
  | .methodType => 16
  | .dynamic => 17
  | .invokeDynamic => 18
  | .module => 19
  | .package => 20

def ofByte? : UInt8 → Option Tag
  | 0 => some .placeholder
  | 1 => some .utf8
  | 3 => some .integer
  | 4 => some .float
  | 5 => some .long
  | 6 => some .double
  | 7 => some .classRef
  | 8 => some .stringRef
  | 9 => some .fieldRef
  | 10 => some .methodRef
  | 11 => some .interfaceMethodRef
  | 12 => some .nameAndType
  | 15 => some .methodHandle
  | 16 => some .methodType
  | 17 => some .dynamic
  | 18 => some .invokeDynamic
  | 19 => some .module
  | 20 => some .package
  | _ => none

def name : Tag → String
  | .placeholder => "Placeholder"
  | .utf8 => "Utf8"
  | .integer => "Integer"
  | .float => "Float"
  | .long => "Long"
  | .double => "Double"
  | .classRef => "Class"
  | .stringRef => "String"
  | .fieldRef => "FieldRef"
  | .methodRef => "MethodRef"
  | .interfaceMethodRef => "InterfaceMethodRef"
  | .nameAndType => "NameAndType"
  | .methodHandle => "MethodHandle"
  | .methodType => "MethodType"
  | .dynamic => "Dynamic"
  | .invokeDynamic => "InvokeDynamic"
  | .module => "Module"
  | .package => "Package"

/-- The name of a tag byte; one of no known kind is shown by its number. -/
def nameOfByte (b : UInt8) : Bytes :=
  match ofByte? b with
  | some t => t.name
  | none => "Tag(" ++ Bytes.ofNat b.toNat ++ ")"

theorem ofByte?_byte (t : Tag) : ofByte? t.byte = some t := by cases t <;> rfl

end Tag

structure Entry where
  tag : UInt8
  /-- The first index: a name, a text, a class, a reference or a bootstrap method. -/
  index1 : UInt16 := 0
  /-- The second index: a name and type, or a descriptor. -/
  index2 : UInt16 := 0
  /-- The kind of a method handle. -/
  kind : UInt8 := 0
  /-- The value of an integer constant. -/
  int : Int64 := 0
  /-- The value of a floating point constant. -/
  float : Double := Double.zero
  /-- The text of a Utf8 constant. -/
  text : Bytes := []
  deriving DecidableEq, Repr

namespace Entry

/-- The kind of constant, if the tag byte is known. -/
def tag? (e : Entry) : Option Tag := Tag.ofByte? e.tag

def tagName (e : Entry) : Bytes := Tag.nameOfByte e.tag

def placeholder : Entry := { tag := Tag.placeholder.byte }

def utf8 (text : Bytes) : Entry := { tag := Tag.utf8.byte, text }

def classRef (name : UInt16) : Entry := { tag := Tag.classRef.byte, index1 := name }

def stringRef (text : UInt16) : Entry := { tag := Tag.stringRef.byte, index1 := text }

def methodType (descriptor : UInt16) : Entry :=
  { tag := Tag.methodType.byte, index1 := descriptor }

def methodRef (owner nameAndType : UInt16) : Entry :=
  { tag := Tag.methodRef.byte, index1 := owner, index2 := nameAndType }

def interfaceMethodRef (owner nameAndType : UInt16) : Entry :=
  { tag := Tag.interfaceMethodRef.byte, index1 := owner, index2 := nameAndType }

def fieldRef (owner nameAndType : UInt16) : Entry :=
  { tag := Tag.fieldRef.byte, index1 := owner, index2 := nameAndType }

def nameAndType (name descriptor : UInt16) : Entry :=
  { tag := Tag.nameAndType.byte, index1 := name, index2 := descriptor }

def integer (v : Int32) : Entry := { tag := Tag.integer.byte, int := v.toInt64 }

def single (v : Double) : Entry := { tag := Tag.float.byte, float := v }

def long (v : Int64) : Entry := { tag := Tag.long.byte, int := v }

def double (v : Double) : Entry := { tag := Tag.double.byte, float := v }

/-- Whether the constant takes two slots in a class file. -/
def isWide (e : Entry) : Bool := e.tag? = some .long || e.tag? = some .double

end Entry

/-! ## Constant pools -/

structure Pool where
  entries : Array Entry
  deriving DecidableEq, Repr

namespace Pool

inductive ResolveError where
  /-- Index 0, or one past the end. -/
  | outOfRange (index : UInt16)
  /-- The entry at the index has no text. -/
  | unresolvable (index : UInt16) (tag : UInt8)
  deriving DecidableEq, Repr

def ResolveError.message : ResolveError → Bytes
  | .outOfRange index =>
    "resolve #" ++ Bytes.ofNat index.toNat ++ ": constant pool index out of range"
  | .unresolvable index tag =>
    "resolve #" ++ Bytes.ofNat index.toNat ++ " (" ++ Tag.nameOfByte tag
      ++ "): unresolvable constant"

/-- The pool of a list of entries. A placeholder goes in front unless one is there already. -/
def ofEntries (entries : List Entry) : Pool :=
  match entries with
  | e :: _ =>
    if e.tag = Tag.placeholder.byte then ⟨entries.toArray⟩
    else ⟨(Entry.placeholder :: entries).toArray⟩
  | [] => ⟨#[Entry.placeholder]⟩

/-- The number of slots, the placeholder included. -/
def size (p : Pool) : Nat := p.entries.size

/-- The entry at an index from one on. -/
def entry (p : Pool) (index : UInt16) : Except ResolveError Entry :=
  if index = 0 then .error (.outOfRange index)
  else match p.entries[index.toNat]? with
    | some e => .ok e
    | none => .error (.outOfRange index)

/-- The text of the entry at an index, following at most `depth` references. -/
def resolveWithin (p : Pool) (depth : Nat) (index : UInt16) : Except ResolveError Bytes :=
  match p.entry index with
  | .error err => .error err
  | .ok e =>
    match depth with
    | 0 => .error (.unresolvable index e.tag)
    | depth + 1 =>
      match e.tag? with
      | some .utf8 => .ok e.text
      | some .classRef | some .stringRef => p.resolveWithin depth e.index1
      | some .nameAndType => do
        let name ← p.resolveWithin depth e.index1
        let descriptor ← p.resolveWithin depth e.index2
        return name ++ ":" ++ descriptor
      | some .methodRef | some .interfaceMethodRef | some .fieldRef => do
        let owner ← p.resolveWithin depth e.index1
        let nameAndType ← p.resolveWithin depth e.index2
        return owner ++ "." ++ nameAndType
      | _ => .error (.unresolvable index e.tag)

/-- The text of the entry at an index. A chain of references longer than the pool runs in a
circle. -/
def resolve (p : Pool) (index : UInt16) : Except ResolveError Bytes :=
  p.resolveWithin p.size index

def utf8 (p : Pool) (index : UInt16) : Except ResolveError Bytes := do
  let e ← p.entry index
  if e.tag? = some .utf8 then return e.text else .error (.unresolvable index e.tag)

end Pool

end MiniJvm

/-! ## Pool listings

One line for each constant: its index, its kind, its operands and, unless the constant is a text
itself, the text it resolves to. Placeholders are left out. -/

namespace MiniJvm.Pool

def mark (index : Nat) : Bytes := "#" ++ Bytes.ofNat index

def operands (e : Entry) : Bytes :=
  match e.tag? with
  | some .utf8 => e.text
  | some .integer | some .long => Bytes.ofInt e.int.toInt
  | some .float | some .double => Shortest.text e.float
  | some .classRef | some .stringRef | some .methodType | some .module | some .package =>
    mark e.index1.toNat
  | some .methodHandle => Bytes.ofNat e.kind.toNat ++ ":" ++ mark e.index1.toNat
  | _ => mark e.index1.toNat ++ "." ++ mark e.index2.toNat

/-- The line of the constant in slot `index`. Blanks at its end are dropped. -/
def dumpLine (p : Pool) (index : Nat) (e : Entry) : Bytes :=
  let line := Utf8.padLeft 5 (mark index) ++ " = " ++ Utf8.padRight 18 e.tagName ++ " "
    ++ operands e
  let noted :=
    if e.tag? = some .utf8 then line
    else match p.resolve index.toUInt16 with
      | .ok text => Utf8.padRight 44 line ++ " // " ++ text
      | .error _ => line
  Bytes.trimRight (· == 32) noted ++ "\n"

def dump (p : Pool) : Bytes :=
  p.entries.toList.zipIdx.flatMap fun (e, index) =>
    if index = 0 || e.tag? = some .placeholder then [] else p.dumpLine index e

end MiniJvm.Pool
