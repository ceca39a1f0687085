import MiniJvm.Code.Instruction

/-!
# Code bytes

Class files hold code as bytes in which a branch gives the distance in bytes from its own first
byte. `decode` turns such bytes into instructions whose branches give instruction indices, and
`encode` lays instructions out as bytes again. A branch to the end of the code is allowed.
-/

namespace MiniJvm.Code

inductive DecodeError where
  | unknownOpcode (op : Opcode) (offset : Nat)
  /-- The operands run past the end. -/
  | truncated (op : Opcode) (offset : Nat)
  /-- The target is neither the start of an instruction nor the end of the code. -/
  | badBranch (op : Opcode) (offset : Nat) (target : Int)
  deriving DecidableEq, Repr

def DecodeError.message : DecodeError → Bytes
  | .unknownOpcode op offset =>
    "unknown opcode 0x" ++ Bytes.upperHex op.byte ++ " at byte " ++ Bytes.ofNat offset
  | .truncated op offset =>
    "truncated instruction: " ++ op.name ++ " at byte " ++ Bytes.ofNat offset
  | .badBranch op offset target =>
    "branch target is not an instruction boundary: " ++ op.name ++ " at byte "
      ++ Bytes.ofNat offset ++ " targets byte " ++ Bytes.ofInt target

inductive EncodeError where
  | unknownOpcode (op : Opcode) (index : Nat)
  | badBranch (op : Opcode) (index : Nat) (target : Int)
  | operandRange (op : Opcode) (index : Nat) (operand low high : Int)
  | jumpRange (op : Opcode) (index : Nat) (distance : Int)
  deriving DecidableEq, Repr

def EncodeError.message : EncodeError → Bytes
  | .unknownOpcode op index =>
    "unknown opcode 0x" ++ Bytes.upperHex op.byte ++ " at index " ++ Bytes.ofNat index
  | .badBranch op index target =>
    "branch target is not an instruction boundary: " ++ op.name ++ " at index "
      ++ Bytes.ofNat index ++ " targets index " ++ Bytes.ofInt target
  | .operandRange op index operand low high =>
    "operand out of range: " ++ op.name ++ " at index " ++ Bytes.ofNat index ++ " has operand "
      ++ Bytes.ofInt operand ++ ", want " ++ Bytes.ofInt low ++ ".." ++ Bytes.ofInt high
  | .jumpRange op index distance =>
    "operand out of range: " ++ op.name ++ " at index " ++ Bytes.ofNat index ++ " jumps "
      ++ Bytes.ofInt distance ++ " bytes"

def signed8 (b : UInt8) : Int := Int.bmod b.toNat 256

def unsigned16 (high low : UInt8) : Nat := high.toNat * 256 + low.toNat

def signed16 (high low : UInt8) : Int := Int.bmod (unsigned16 high low) 65536

/-- The lowest byte of a number, negative ones in two's complement. -/
def byteOf (n : Int) : UInt8 := (n % 256).toNat.toUInt8

def bytesOf16 (n : Int) : Bytes := [byteOf (n / 256), byteOf n]

def oneByte (m : Mnemonic) (x : UInt8) : Instruction :=
  ⟨m.opcode, Int32.ofInt (if m = .bipush then signed8 x else x.toNat), 0⟩

/-- An instruction with two operand bytes. A branch keeps its distance for now. -/
def twoBytes (m : Mnemonic) (x y : UInt8) : Instruction :=
  match m with
  | .iinc => ⟨m.opcode, Int32.ofInt x.toNat, Int32.ofInt (signed8 y)⟩
  | .invokestatic | .invokespecial => ⟨m.opcode, Int32.ofInt (unsigned16 x y), 0⟩
  | _ => ⟨m.opcode, Int32.ofInt (signed16 x y), 0⟩

/-- Splits bytes that start at `offset` into instructions, each with its own offset. Branches
still hold distances in bytes. -/
def scan (offset : Nat) : Bytes → Except DecodeError (List (Nat × Instruction))
  | [] => .ok []
  | b :: rest =>
    match Mnemonic.ofByte? b with
    | none => .error (.unknownOpcode ⟨b⟩ offset)
    | some m =>
      match m.operandBytes, rest with
      | 0, rest => do return (offset, .plain m) :: (← scan (offset + 1) rest)
      | 1, x :: rest => do return (offset, oneByte m x) :: (← scan (offset + 2) rest)
      | 2, x :: y :: rest => do return (offset, twoBytes m x y) :: (← scan (offset + 3) rest)
      | _, _ => .error (.truncated ⟨b⟩ offset)

/-- The index of the instruction that starts at a byte offset, given the offsets of all
instructions and of the end. -/
def indexAt? (offsets : List Nat) (target : Int) : Option Nat :=
  if target < 0 then none else offsets.idxOf? target.toNat

/-- Turns the distance of a branch at `offset` into an instruction index. -/
def resolveBranch (offsets : List Nat) (at_ : Nat × Instruction) :
    Except DecodeError Instruction :=
  let (offset, i) := at_
  if i.op.isBranch then
    let target := offset + i.a.toInt
    match indexAt? offsets target with
    | some index => .ok { i with a := Int32.ofNat index }
    | none => .error (.badBranch i.op offset target)
  else .ok i

def decode (bytes : Bytes) : Except DecodeError (List Instruction) := do
  let scanned ← scan 0 bytes
  scanned.mapM (resolveBranch (scanned.map Prod.fst ++ [bytes.length]))

/-- The offset of each instruction laid out from `offset` on, and of the end. -/
def offsetsFrom (offset : Nat) : List Instruction → List Nat
  | [] => [offset]
  | i :: rest => offset :: offsetsFrom (offset + i.op.size) rest

/-- The first instruction whose opcode is not supported. -/
def firstUnknown? (code : List Instruction) : Option (Instruction × Nat) :=
  code.zipIdx.find? fun (i, _) => !i.op.known

/-- Refuses an operand outside `low..high`. -/
def checkOperand (i : Instruction) (index : Nat) (operand : Int32) (low high : Int) :
    Except EncodeError Unit :=
  if operand.toInt < low || operand.toInt > high then
    .error (.operandRange i.op index operand.toInt low high)
  else .ok ()

/-- The two bytes of the distance from instruction `index` to the branch target of `i`. -/
def encodeBranch (offsets : Array Nat) (i : Instruction) (index : Nat) : Except EncodeError Bytes :=
  let target := i.a.toInt
  if target < 0 then .error (.badBranch i.op index target)
  else match offsets[target.toNat]?, offsets[index]? with
    | some there, some here =>
      let distance : Int := (there : Int) - (here : Int)
      if distance < -32768 || distance > 32767 then .error (.jumpRange i.op index distance)
      else .ok (bytesOf16 distance)
    | _, _ => .error (.badBranch i.op index target)

def encodeOperands (offsets : Array Nat) (i : Instruction) (index : Nat) :
    Except EncodeError Bytes := do
  match i.op.mnemonic? with
  | some .bipush =>
    checkOperand i index i.a (-128) 127
    return [byteOf i.a.toInt]
  | some .iload | some .istore =>
    checkOperand i index i.a 0 255
    return [byteOf i.a.toInt]
  | some .sipush =>
    checkOperand i index i.a (-32768) 32767
    return bytesOf16 i.a.toInt
  | some .iinc =>
    checkOperand i index i.a 0 255
    checkOperand i index i.b (-128) 127
    return [byteOf i.a.toInt, byteOf i.b.toInt]
  | some .goto | some .ifIcmplt => encodeBranch offsets i index
  | some .invokestatic | some .invokespecial =>
    checkOperand i index i.a 0 65535
    return bytesOf16 i.a.toInt
  | _ => return []

def encodeAt (offsets : Array Nat) (at_ : Instruction × Nat) : Except EncodeError Bytes := do
  let (i, index) := at_
  return i.op.byte :: (← encodeOperands offsets i index)

def encode (code : List Instruction) : Except EncodeError Bytes :=
  match firstUnknown? code with
  | some (i, index) => .error (.unknownOpcode i.op index)
  | none => do
    let parts ← code.zipIdx.mapM (encodeAt (offsetsFrom 0 code).toArray)
    return parts.flatten

end MiniJvm.Code
