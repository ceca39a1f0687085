import MiniJvm.Pool.Basic
import MiniJvm.Text.Bytes
import MiniJvm.Text.Utf8

/-!
# Instructions

The supported instructions, their encoding bytes and mnemonics, how many operand bytes follow
each in a class file and how many values each takes from and leaves on the operand stack. An
opcode is any byte; most bytes are no supported instruction.

A decoded instruction is an opcode with two operand fields. The first holds the local slot, the
number to push, the index of the instruction to branch to, or the pool index of a call; the
second holds what `iinc` adds. Fields that an opcode does not use may hold anything.
-/

namespace MiniJvm

inductive Mnemonic where
  /-- Push minus one. -/
  | iconstM1
  | iconst0
  | iconst1
  | iconst2
  | iconst3
  | iconst4
  | iconst5
  /-- Push a signed byte. -/
  | bipush
  /-- Push a signed 16-bit number. -/
  | sipush
  /-- Push a local. -/
  | iload
  | iload0
  | iload1
  | iload2
  | iload3
  /-- Push local 0, the receiver. -/
  | aload0
  /-- Pop into a local. -/
  | istore
  | istore0
  | istore1
  | istore2
  | istore3
  /-- Pop two, push their sum. -/
  | iadd
  /-- Add to a local in place. -/
  | iinc
  /-- Pop two and branch when the lower one is less. -/
  | ifIcmplt
  /-- Branch. -/
  | goto
  /-- Pop a value and return it. -/
  | ireturn
  /-- Return without a value. -/
  | returnVoid
  /-- Call a method with a receiver. -/
  | invokespecial
  /-- Call a method. -/
  | invokestatic
  deriving DecidableEq, Repr

namespace Mnemonic

/-- All instructions, by ascending byte. -/
def all : List Mnemonic :=
  [.iconstM1, .iconst0, .iconst1, .iconst2, .iconst3, .iconst4, .iconst5, .bipush, .sipush,
    .iload, .iload0, .iload1, .iload2, .iload3, .aload0, .istore, .istore0, .istore1, .istore2,
    .istore3, .iadd, .iinc, .ifIcmplt, .goto, .ireturn, .returnVoid, .invokespecial,
    .invokestatic]

def byte : Mnemonic → UInt8
  | .iconstM1 => 0x02
  | .iconst0 => 0x03
  | .iconst1 => 0x04
  | .iconst2 => 0x05
  | .iconst3 => 0x06
  | .iconst4 => 0x07
  | .iconst5 => 0x08
  | .bipush => 0x10
  | .sipush => 0x11
  | .iload => 0x15
  | .iload0 => 0x1A
  | .iload1 => 0x1B
  | .iload2 => 0x1C
  | .iload3 => 0x1D
  | .aload0 => 0x2A
  | .istore => 0x36
  | .istore0 => 0x3B
  | .istore1 => 0x3C
  | .istore2 => 0x3D
  | .istore3 => 0x3E
  | .iadd => 0x60
  | .iinc => 0x84
  | .ifIcmplt => 0xA1
  | .goto => 0xA7
  | .ireturn => 0xAC
  | .returnVoid => 0xB1
  | .invokespecial => 0xB7
  | .invokestatic => 0xB8

/-- The written name of an instruction. -/
def name : Mnemonic → String
  | .iconstM1 => "iconst_m1"
  | .iconst0 => "iconst_0"
  | .iconst1 => "iconst_1"
  | .iconst2 => "iconst_2"
  | .iconst3 => "iconst_3"
  | .iconst4 => "iconst_4"
  | .iconst5 => "iconst_5"
  | .bipush => "bipush"
  | .sipush => "sipush"
  | .iload => "iload"
  | .iload0 => "iload_0"
  | .iload1 => "iload_1"
  | .iload2 => "iload_2"
  | .iload3 => "iload_3"
  | .aload0 => "aload_0"
  | .istore => "istore"
  | .istore0 => "istore_0"
  | .istore1 => "istore_1"
  | .istore2 => "istore_2"
  | .istore3 => "istore_3"
  | .iadd => "iadd"
  | .iinc => "iinc"
  | .ifIcmplt => "if_icmplt"
  | .goto => "goto"
  | .ireturn => "ireturn"
  | .returnVoid => "return"
  | .invokespecial => "invokespecial"
  | .invokestatic => "invokestatic"

def ofByte? : UInt8 → Option Mnemonic
  | 0x02 => some .iconstM1
  | 0x03 => some .iconst0
  | 0x04 => some .iconst1
  | 0x05 => some .iconst2
  | 0x06 => some .iconst3
  | 0x07 => some .iconst4
  | 0x08 => some .iconst5
  | 0x10 => some .bipush
  | 0x11 => some .sipush
  | 0x15 => some .iload
  | 0x1A => some .iload0
  | 0x1B => some .iload1
  | 0x1C => some .iload2
  | 0x1D => some .iload3
  | 0x2A => some .aload0
  | 0x36 => some .istore
  | 0x3B => some .istore0
  | 0x3C => some .istore1
  | 0x3D => some .istore2
  | 0x3E => some .istore3
  | 0x60 => some .iadd
  | 0x84 => some .iinc
  | 0xA1 => some .ifIcmplt
  | 0xA7 => some .goto
  | 0xAC => some .ireturn
  | 0xB1 => some .returnVoid
  | 0xB7 => some .invokespecial
  | 0xB8 => some .invokestatic
  | _ => none

def operandBytes : Mnemonic → Nat
  | .bipush | .iload | .istore => 1
  | .sipush | .iinc | .ifIcmplt | .goto | .invokespecial | .invokestatic => 2
  | _ => 0

def isBranch : Mnemonic → Bool
  | .goto | .ifIcmplt => true
  | _ => false

def isReturn : Mnemonic → Bool
  | .ireturn | .returnVoid => true
  | _ => false

def isInvoke : Mnemonic → Bool
  | .invokespecial | .invokestatic => true
  | _ => false

/-- The values taken from the operand stack; unless the callee decides it. -/
def pops? : Mnemonic → Option Nat
  | .invokespecial | .invokestatic => none
  | .iadd | .ifIcmplt => some 2
  | .istore | .istore0 | .istore1 | .istore2 | .istore3 | .ireturn => some 1
  | _ => some 0

/-- The values left on the operand stack; unless the callee decides it. -/
def pushes? : Mnemonic → Option Nat
  | .invokespecial | .invokestatic => none
  | .istore | .istore0 | .istore1 | .istore2 | .istore3 => some 0
  | .iinc | .ifIcmplt | .goto | .ireturn | .returnVoid => some 0
  | _ => some 1

def ofName? (s : Bytes) : Option Mnemonic := all.find? fun m => (m.name : Bytes) == s

theorem ofByte?_byte (m : Mnemonic) : ofByte? m.byte = some m := by cases m <;> rfl

end Mnemonic

/-- An instruction byte, supported or not. -/
structure Opcode where
  byte : UInt8
  deriving DecidableEq, Repr

namespace Opcode

instance : Inhabited Opcode := ⟨⟨0⟩⟩

def mnemonic? (op : Opcode) : Option Mnemonic := Mnemonic.ofByte? op.byte

def known (op : Opcode) : Bool := op.mnemonic?.isSome

/-- The mnemonic, or the byte of an opcode that has none. -/
def name (op : Opcode) : Bytes :=
  match op.mnemonic? with
  | some m => m.name
  | none => "UNKNOWN(0x" ++ Bytes.upperHex op.byte ++ ")"

def operandBytes (op : Opcode) : Nat := (op.mnemonic?.map Mnemonic.operandBytes).getD 0

/-- The bytes of a whole instruction. -/
def size (op : Opcode) : Nat := 1 + op.operandBytes

def isBranch (op : Opcode) : Bool := (op.mnemonic?.map Mnemonic.isBranch).getD false

def isReturn (op : Opcode) : Bool := (op.mnemonic?.map Mnemonic.isReturn).getD false

def isInvoke (op : Opcode) : Bool := (op.mnemonic?.map Mnemonic.isInvoke).getD false

end Opcode

def Mnemonic.opcode (m : Mnemonic) : Opcode := ⟨m.byte⟩

@[simp] theorem Mnemonic.mnemonic?_opcode (m : Mnemonic) : m.opcode.mnemonic? = some m :=
  ofByte?_byte m

/-! ## Instructions -/

structure Instruction where
  op : Opcode
  a : Int32 := 0
  b : Int32 := 0
  deriving DecidableEq, Repr

namespace Instruction

instance : Inhabited Instruction := ⟨⟨⟨0⟩, 0, 0⟩⟩

def plain (m : Mnemonic) : Instruction := ⟨m.opcode, 0, 0⟩

def bipush (v : Int8) : Instruction := ⟨Mnemonic.bipush.opcode, v.toInt32, 0⟩

def sipush (v : Int16) : Instruction := ⟨Mnemonic.sipush.opcode, v.toInt32, 0⟩

def iload (slot : UInt8) : Instruction := ⟨Mnemonic.iload.opcode, Int32.ofNat slot.toNat, 0⟩

def istore (slot : UInt8) : Instruction := ⟨Mnemonic.istore.opcode, Int32.ofNat slot.toNat, 0⟩

def iinc (slot : UInt8) (delta : Int8) : Instruction :=
  ⟨Mnemonic.iinc.opcode, Int32.ofNat slot.toNat, delta.toInt32⟩

/-- A branch to an instruction index, of which the lowest 32 bits count. -/
def goto (target : Int) : Instruction := ⟨Mnemonic.goto.opcode, Int32.ofInt target, 0⟩

/-- A conditional branch to an instruction index, of which the lowest 32 bits count. -/
def ifIcmplt (target : Int) : Instruction := ⟨Mnemonic.ifIcmplt.opcode, Int32.ofInt target, 0⟩

def invokestatic (index : UInt16) : Instruction :=
  ⟨Mnemonic.invokestatic.opcode, Int32.ofNat index.toNat, 0⟩

def invokespecial (index : UInt16) : Instruction :=
  ⟨Mnemonic.invokespecial.opcode, Int32.ofNat index.toNat, 0⟩

/-- The local slot an instruction addresses. The short forms have it in the opcode. -/
def slot? (i : Instruction) : Option Int :=
  match i.op.mnemonic? with
  | some .iload | some .istore | some .iinc => some i.a.toInt
  | some .iload0 | some .istore0 | some .aload0 => some 0
  | some .iload1 | some .istore1 => some 1
  | some .iload2 | some .istore2 => some 2
  | some .iload3 | some .istore3 => some 3
  | _ => none

/-- The 16-bit pool index in the first operand, of which the lowest bits count. -/
def poolIndex (i : Instruction) : UInt16 := i.a.toUInt32.toUInt16

def text (i : Instruction) : Bytes :=
  match i.op.mnemonic? with
  | some .bipush | some .sipush | some .iload | some .istore =>
    i.op.name ++ " " ++ Bytes.ofInt i.a.toInt
  | some .iinc => i.op.name ++ " " ++ Bytes.ofInt i.a.toInt ++ ", " ++ Bytes.ofInt i.b.toInt
  | some .goto | some .ifIcmplt => i.op.name ++ " -> " ++ Bytes.ofInt i.a.toInt
  | some .invokestatic | some .invokespecial => i.op.name ++ " #" ++ Bytes.ofInt i.a.toInt
  | _ => i.op.name

end Instruction

end MiniJvm

/-! ## Code listings

A listing shows a method body: a heading, the sizes of its frame, and one line for each
instruction. Branch targets are marked, and calls show the method they name. -/

namespace MiniJvm.Code

structure Listing where
  /-- The heading; none when empty. -/
  title : Bytes := []
  maxStack : Int := 0
  maxLocals : Int := 0
  code : List Instruction := []
  /-- Where calls are looked up. -/
  pool : Option Pool := none

def Listing.instructionText (l : Listing) (i : Instruction) : Bytes :=
  match l.pool with
  | none => i.text
  | some pool =>
    if i.op.isInvoke then
      match pool.resolve i.poolIndex with
      | .ok signature => Utf8.padRight 24 i.text ++ " ; " ++ signature
      | .error _ => i.text
    else i.text

def branchTargets (code : List Instruction) : List Int :=
  (code.filter fun i => i.op.isBranch).map fun i => i.a.toInt

def Listing.text (l : Listing) : Bytes :=
  let title : Bytes := if l.title.isEmpty then [] else "; === " ++ l.title ++ " ===\n"
  let sizes : Bytes :=
    if l.maxStack > 0 || l.maxLocals > 0 then
      "; stack=" ++ Bytes.ofInt l.maxStack ++ " locals=" ++ Bytes.ofInt l.maxLocals ++ "\n"
    else []
  let targets := branchTargets l.code
  let line (at_ : Instruction × Nat) : Bytes :=
    let mark : Bytes := if targets.contains (at_.2 : Int) then "> " else "  "
    mark ++ Bytes.zeroPad 4 (Bytes.ofNat at_.2) ++ "  " ++ l.instructionText at_.1 ++ "\n"
  title ++ sizes ++ l.code.zipIdx.flatMap line

def disassemble (code : List Instruction) : Bytes := Listing.text { code }

end MiniJvm.Code
