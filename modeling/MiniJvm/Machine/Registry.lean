import MiniJvm.ClassFile.Reader
import MiniJvm.Code.Encoding
import MiniJvm.Code.Instruction
import MiniJvm.Log
import MiniJvm.Pool.Basic
import MiniJvm.Table

/-!
# Registries

A registry holds the loaded classes by name and the loaded methods by signature. Every method
that is made gets a stamp of its own, so two methods with equal contents can be told apart.

A definition is what a loader hands over for one class: names, constants and decoded methods. A
list that was never given is told apart from an empty one, because stored images keep the
difference.
-/

namespace MiniJvm

structure MethodDef where
  name : Bytes
  descriptor : Bytes
  maxStack : Int64
  maxLocals : Int64
  code : Option (List Instruction)
  deriving DecidableEq, Repr

structure ClassDef where
  name : Bytes
  /-- The name of the super class, or empty. -/
  superName : Bytes := []
  pool : Option (List Entry) := none
  methods : Option (List MethodDef) := none
  deriving DecidableEq, Repr

namespace ClassDef

def constants (d : ClassDef) : List Entry := d.pool.getD []

def methodList (d : ClassDef) : List MethodDef := d.methods.getD []

/-- Why a class file has no definition: the code of a method does not decode. -/
structure ConvertError where
  signature : Bytes
  cause : Code.DecodeError
  deriving DecidableEq, Repr

def ConvertError.message (e : ConvertError) : Bytes :=
  "decode " ++ e.signature ++ ": " ++ e.cause.message

/-- A list as it is handed over: never given when empty. -/
def given {α : Type} (items : List α) : Option (List α) :=
  if items.isEmpty then none else some items

def methodOf (c : ClassFile) (m : MethodInfo) (body : CodeBody) : Except ConvertError MethodDef :=
  match Code.decode body.bytes with
  | .error cause => .error ⟨c.signature m, cause⟩
  | .ok code =>
    .ok { name := m.name, descriptor := m.descriptor,
          maxStack := Int64.ofNat body.maxStack.toNat,
          maxLocals := Int64.ofNat body.maxLocals.toNat, code := given code }

/-- The definitions of the methods that have a body, and the signatures of those passed over
before the first error. -/
def methodsOf (c : ClassFile) :
    List MethodInfo → Except ConvertError (List MethodDef) × List Bytes
  | [] => (.ok [], [])
  | m :: rest =>
    match m.code with
    | none =>
      let (defs, skipped) := methodsOf c rest
      (defs, c.signature m :: skipped)
    | some body =>
      match methodOf c m body with
      | .error e => (.error e, [])
      | .ok d =>
        let (defs, skipped) := methodsOf c rest
        (defs.map (d :: ·), skipped)

def ofClassFile (c : ClassFile) : Except ConvertError ClassDef :=
  (methodsOf c c.methods).1.map fun methods =>
    { name := c.name, superName := c.superName, pool := some c.pool.entries.toList,
      methods := given methods }

/-- What is logged while a class file is converted. -/
def conversionLog (c : ClassFile) : List Log.Line :=
  (methodsOf c c.methods).2.map fun signature =>
    ⟨.debug, "ristretto.vm", "load: " ++ signature ++ " has no code, skipped"⟩

end ClassDef

/-! ## Registries -/

structure Method where
  /-- The number of the method in the order in which methods were made. -/
  stamp : Nat
  owner : Bytes
  name : Bytes
  descriptor : Bytes
  maxStack : Int64
  maxLocals : Int64
  /-- The slots that a call takes from the caller, without a receiver. Loading counts them. -/
  argSlots : Int64
  /-- Whether the descriptor has no result. -/
  void : Bool
  code : Array Instruction
  deriving DecidableEq, Repr

namespace Method

def signature (m : Method) : Bytes := MiniJvm.signature m.owner m.name m.descriptor

def listing (m : Method) (pool : Option Pool) : Code.Listing :=
  { title := m.signature, maxStack := m.maxStack.toInt, maxLocals := m.maxLocals.toInt,
    code := m.code.toList, pool }

end Method

structure Class where
  name : Bytes
  superName : Bytes
  /-- The constants; loading always provides them. -/
  pool : Option Pool
  /-- The methods of the class, by signature. -/
  methods : Table Method
  deriving DecidableEq, Repr

structure Registry where
  classes : Table Class
  methods : Table Method
  /-- The stamp of the next method. -/
  nextStamp : Nat
  deriving Repr

inductive LookupError where
  | classNotFound (name : Bytes)
  | methodNotFound (signature : Bytes)
  deriving DecidableEq, Repr

def LookupError.message : LookupError → Bytes
  | .classNotFound name => "class not found: " ++ name
  | .methodNotFound signature => "method not found: " ++ signature

namespace Registry

def empty : Registry := ⟨.empty, .empty, 0⟩

/-- The registry with a class in place of any of that name. -/
def registerClass (r : Registry) (c : Class) : Registry :=
  { r with classes := r.classes.insert c.name c }

/-- The method with a stamp of its own, and the registry that will not give it again. -/
def stampMethod (r : Registry) (m : Method) : Method × Registry :=
  ({ m with stamp := r.nextStamp }, { r with nextStamp := r.nextStamp + 1 })

def registerMethod (r : Registry) (signature : Bytes) (m : Method) : Registry :=
  { r with methods := r.methods.insert signature m }

/-- The registry without a signature, if it still stands for that very method. -/
def removeMethod (r : Registry) (signature : Bytes) (m : Method) : Registry :=
  match r.methods.get? signature with
  | some found =>
    if found.stamp = m.stamp then { r with methods := r.methods.erase signature } else r
  | none => r

def lookupClass (r : Registry) (name : Bytes) : Except LookupError Class :=
  match r.classes.get? name with
  | some c => .ok c
  | none => .error (.classNotFound name)

def lookupMethod (r : Registry) (signature : Bytes) : Except LookupError Method :=
  match r.methods.get? signature with
  | some m => .ok m
  | none => .error (.methodNotFound signature)

def size (r : Registry) : Nat := r.methods.size

def signatures (r : Registry) : List Bytes := r.methods.names

/-- The registered classes in the byte order of their names. -/
def classList (r : Registry) : List Class := r.classes.values

end Registry

/-! ## Disassembly

A class is shown by its heading, its constants and the listings of its methods in the byte order
of their signatures. -/

def Class.disassemble (c : Class) : Bytes :=
  let parent : Bytes := if c.superName.isEmpty then [] else " extends " ++ c.superName
  let constants : Bytes := (c.pool.map Pool.dump).getD []
  let listing (m : Method) : Bytes := "\n" ++ (m.listing c.pool).text
  "class " ++ c.name ++ parent ++ "\n\nConstant pool:\n" ++ constants
    ++ c.methods.values.flatMap listing

/-- The text of all classes, with an empty line between neighbours. -/
def Registry.disassemble (r : Registry) : Bytes :=
  Bytes.join "\n" (r.classList.map Class.disassemble)

end MiniJvm
