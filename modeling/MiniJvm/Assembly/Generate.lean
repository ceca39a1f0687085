import MiniJvm.Assembly.Parser
import MiniJvm.Assembly.StackDepth
import MiniJvm.Machine.Registry
import MiniJvm.Pool.Basic
import Std.Data.TreeMap.Basic

/-!
# Generating classes

A parsed source becomes class definitions. A first pass over a method finds where its labels
stand; a second one turns its lines into instructions and adds the methods they call to the
pool. Sizes that the header leaves open are inferred.

A builder adds the constants that a class needs, each distinct one once. Indices have 16 bits; a
pool that outgrows them is refused when it is finished.
-/

namespace MiniJvm

/-- An order on constants in which only equal ones are equal. -/
def Entry.order : Entry → Entry → Ordering :=
  compareLex (compareOn Entry.tag) (compareLex (compareOn Entry.index1)
    (compareLex (compareOn Entry.index2) (compareLex (compareOn Entry.kind)
      (compareLex (compareOn Entry.int) (compareLex (compareOn fun e => e.float.bits)
        (compareOn Entry.text))))))

structure PoolBuilder where
  entries : Array Entry
  /-- Where each constant stands. -/
  index : Std.TreeMap Entry UInt16 Entry.order

namespace PoolBuilder

def start : PoolBuilder := ⟨#[Entry.placeholder], {}⟩

def add (b : PoolBuilder) (e : Entry) : UInt16 × PoolBuilder :=
  match b.index[e]? with
  | some i => (i, b)
  | none =>
    let i := b.entries.size.toUInt16
    (i, ⟨b.entries.push e, b.index.insert e i⟩)

def addUtf8 (b : PoolBuilder) (text : Bytes) : UInt16 × PoolBuilder := b.add (.utf8 text)

def addClass (b : PoolBuilder) (name : Bytes) : UInt16 × PoolBuilder :=
  let (i, b) := b.addUtf8 name
  b.add (.classRef i)

def addMethodRef (b : PoolBuilder) (owner name descriptor : Bytes) : UInt16 × PoolBuilder :=
  let (nameIndex, b) := b.addUtf8 name
  let (descriptorIndex, b) := b.addUtf8 descriptor
  let (nameAndType, b) := b.add (.nameAndType nameIndex descriptorIndex)
  let (ownerIndex, b) := b.addClass owner
  b.add (.methodRef ownerIndex nameAndType)

def isFull (b : PoolBuilder) : Bool := 65535 ≤ b.entries.size

def pool (b : PoolBuilder) : Pool := ⟨b.entries⟩

end PoolBuilder

end MiniJvm

/-! ## Generating classes -/

namespace MiniJvm.Assembly

/-- What generation has built: the pool of the current class, and the problems found. -/
structure GenState where
  builder : PoolBuilder
  errors : Array SourceError

namespace GenState

def report (s : GenState) (pos : Position) (problem : Problem) : GenState :=
  { s with errors := s.errors.push ⟨pos, problem⟩ }

end GenState

/-- The labels of a method with the index of the instruction they stand before. -/
abbrev Labels := Std.TreeMap Bytes Nat

def labelIndex? (labels : Labels) (name : Bytes) : Option Nat := labels[name]?

/-- Finds the labels of body lines from instruction index `n` on. A label that stands twice is a
problem, and its last place counts. -/
def findLabels (s : GenState) (labels : Labels) (n : Nat) : List BodyLine → GenState × Labels
  | [] => (s, labels)
  | line :: rest =>
    let after := if line.mnemonic.isEmpty then n else n + 1
    if line.label.isEmpty then findLabels s labels after rest
    else
      let s :=
        if (labelIndex? labels line.label).isSome then
          s.report line.pos (.duplicateLabel line.label)
        else s
      findLabels s (labels.insert line.label n) after rest

def intOperand (t : Token) (low high : Int) : Except OperandProblem Int32 :=
  match t.kind with
  | .integer v =>
    if v < low || v > high then .error (.outOfRange v low high) else .ok (Int32.ofInt v)
  | _ => .error (.expectedInteger t)

def branchOperand (labels : Labels) (t : Token) : Except OperandProblem Int32 :=
  match t.kind with
  | .integer _ => intOperand t 0 2147483647
  | _ =>
    match labelIndex? labels t.literal with
    | some n => .ok (Int32.ofNat n)
    | none => .error (.undefinedLabel t.literal)

def splitLastDot? (s : Bytes) : Option (Bytes × Bytes) :=
  match s.reverse.dropWhile (· != 46) with
  | [] => none
  | _ :: before => some (before.reverse, (s.reverse.takeWhile (· != 46)).reverse)

/-- A method reference `Class.name:descriptor` in its parts. Without a class part the method
belongs to the class at hand. -/
def splitReference (text self : Bytes) : Except OperandProblem (Bytes × Bytes × Bytes) :=
  match Bytes.cut? 58 text with
  | none => .error (.malformedReference text)
  | some (head, descriptor) =>
    let (owner, name) := (splitLastDot? head).getD (self, head)
    if descriptor.isEmpty || owner.isEmpty || name.isEmpty then
      .error (.malformedReference text)
    else if (Descriptor.parse? descriptor).isNone then .error (.badDescriptor descriptor)
    else .ok (owner, name, descriptor)

def operandCount : Mnemonic → Nat
  | .bipush | .sipush | .iload | .istore | .goto | .ifIcmplt | .invokestatic | .invokespecial => 1
  | .iinc => 2
  | _ => 0

/-- An instruction whose operands are checked. A call does not have its pool index yet. -/
inductive Draft where
  | plain (i : Instruction)
  | call (m : Mnemonic) (owner name descriptor : Bytes)
  deriving DecidableEq, Repr

def draft (labels : Labels) (self : Bytes) (m : Mnemonic) (operands : List Token) :
    Except OperandProblem Draft := do
  match m, operands with
  | .bipush, [t] => return .plain ⟨m.opcode, ← intOperand t (-128) 127, 0⟩
  | .sipush, [t] => return .plain ⟨m.opcode, ← intOperand t (-32768) 32767, 0⟩
  | .iload, [t] | .istore, [t] => return .plain ⟨m.opcode, ← intOperand t 0 255, 0⟩
  | .iinc, [t, u] =>
    let slot ← intOperand t 0 255
    let delta ← intOperand u (-128) 127
    return .plain ⟨m.opcode, slot, delta⟩
  | .goto, [t] | .ifIcmplt, [t] => return .plain ⟨m.opcode, ← branchOperand labels t, 0⟩
  | .invokestatic, [t] | .invokespecial, [t] =>
    let (owner, name, descriptor) ← splitReference t.literal self
    return .call m owner name descriptor
  | _, _ => return .plain (.plain m)

/-- The instruction of a draft; a call adds its method to the pool. -/
def GenState.emit (s : GenState) : Draft → GenState × Instruction
  | .plain i => (s, i)
  | .call m owner name descriptor =>
    let ⟨builder, errors⟩ := s
    let (index, builder) := builder.addMethodRef owner name descriptor
    (⟨builder, errors⟩, ⟨m.opcode, Int32.ofNat index.toNat, 0⟩)

def draftLine (labels : Labels) (self : Bytes) (line : BodyLine) : Except SourceError Draft :=
  match Mnemonic.ofName? line.mnemonic with
  | none => .error ⟨line.pos, .unknownInstruction line.mnemonic⟩
  | some m =>
    if line.operands.length ≠ operandCount m then
      .error ⟨line.pos, .operandCount m (operandCount m) line.operands.length⟩
    else
      match draft labels self m line.operands with
      | .ok d => .ok d
      | .error problem =>
        .error ⟨(line.operands.head?.map Token.pos).getD line.pos, .operand m problem⟩

/-- The instructions of body lines, in reverse on top of those before them. -/
def instructions (s : GenState) (labels : Labels) (self : Bytes) (reversed : List Instruction) :
    List BodyLine → GenState × List Instruction
  | [] => (s, reversed.reverse)
  | line :: rest =>
    if line.mnemonic.isEmpty then instructions s labels self reversed rest
    else
      match draftLine labels self line with
      | .ok d =>
        let (s, i) := s.emit d
        instructions s labels self (i :: reversed) rest
      | .error e => instructions (s.report e.pos e.problem) labels self reversed rest

/-- The greatest stack depth of a method; one that cannot be told is a problem. -/
def stackSize (s : GenState) (m : MethodDecl) (code : List Instruction) : GenState × Nat :=
  match m.maxStack with
  | some n => (s, n)
  | none =>
    match maxStack code s.builder.pool with
    | .ok n => (s, n)
    | .error problem => (s.report m.pos (.stack m.name problem), 0)

def method (s : GenState) (self : Bytes) (m : MethodDecl) : GenState × MethodDef :=
  let blank : MethodDef := ⟨m.name, m.descriptor, 0, 0, none⟩
  match Descriptor.parse? m.descriptor with
  | none => (s.report m.pos (.badDescriptor m.name m.descriptor), blank)
  | some d =>
    let (s, labels) := findLabels s {} 0 m.body.toList
    let found := s.errors.size
    let (s, code) := instructions s labels self [] m.body.toList
    let blank := { blank with code := some code }
    if found < s.errors.size then (s, blank)
    else
      let locals := m.maxLocals.getD (maxLocals code d.slots m.static)
      let (s, stack) := stackSize s m code
      (s, { blank with maxStack := Int64.ofNat stack, maxLocals := Int64.ofNat locals })

/-- The definitions of the methods of a class, on top of those before them in reverse. A method
whose name and descriptor stood before is a problem. -/
def methods (s : GenState) (self : Bytes) (seen : List Bytes) (reversed : List MethodDef) :
    List MethodDecl → GenState × List MethodDef
  | [] => (s, reversed.reverse)
  | m :: rest =>
    let key := m.name ++ ":" ++ m.descriptor
    if seen.contains key then
      methods (s.report m.pos (.duplicateMethod key)) self seen reversed rest
    else
      let (s, d) := method s self m
      methods s self (key :: seen) (d :: reversed) rest

def classDef (errors : Array SourceError) (c : ClassDecl) : Array SourceError × ClassDef :=
  let builder := (PoolBuilder.start.addClass c.name).2
  let builder := if c.superName.isEmpty then builder else (builder.addClass c.superName).2
  let (s, defs) := methods ⟨builder, errors⟩ c.name [] [] c.methods.toList
  let s := if s.builder.isFull then s.report c.pos (.poolOverflow c.name) else s
  (s.errors, { name := c.name, superName := c.superName,
               pool := some s.builder.entries.toList, methods := ClassDef.given defs })

def classDefs (errors : Array SourceError) : List ClassDecl → Array SourceError × List ClassDef
  | [] => (errors, [])
  | c :: rest =>
    let (errors, d) := classDef errors c
    let (errors, defs) := classDefs errors rest
    (errors, d :: defs)

def generate (classes : List ClassDecl) : Except (List SourceError) (List ClassDef) :=
  let (errors, defs) := classDefs #[] classes
  if errors.isEmpty then .ok defs else .error errors.toList

def assemble (source : Bytes) : Except (List SourceError) (List ClassDef) := do
  generate (← parse source)

end MiniJvm.Assembly
