import MiniJvm.Machine.Fault

/-!
# Frames

A frame is one activation of a method: the index of the next instruction, the local slots and the
operand stack. `Frame.step` executes one instruction. What an instruction did before it failed
stays done, so a step returns the frame in either case.
-/

namespace MiniJvm

/-- Why a frame stopped running. -/
inductive Signal where
  /-- It ended without a value. -/
  | ended
  | returned (value : Int32)
  /-- It wants a method called; a special call has a receiver below the arguments. -/
  | invoke (signature : Bytes) (special : Bool)
  deriving DecidableEq, Repr

namespace Signal

def kindName : Signal → String
  | .ended => "End"
  | .returned _ => "ReturnValue"
  | .invoke .. => "Invoke"

/-- The name of a numbered kind of signal; they are numbered from one. -/
def kindNameOfCode : Nat → Bytes
  | 1 => "End"
  | 2 => "ReturnValue"
  | 3 => "Invoke"
  | n => "SignalKind(" ++ Bytes.ofNat n ++ ")"

end Signal

structure Frame where
  method : Method
  pool : Option Pool
  /-- The index of the next instruction. -/
  pc : Nat
  locals : Array Int32
  /-- The operand stack, its top last. -/
  stack : Array Int32
  /-- The index of the instruction being executed. -/
  current : Nat
  /-- The number of instructions executed so far. -/
  executed : UInt64
  deriving Repr

/-- A step of a frame: the frame changes, and the step may fail. -/
abbrev FrameM := ExceptT Stop (StateM Frame)

namespace Frame

/-- The slots that memory can address: four bytes each in 48 bits of addresses. -/
def addressable (slots : Int64) : Bool := 0 ≤ slots && slots ≤ 70368744177664

/-- A frame whose leading locals are the arguments and whose other locals are zero. -/
def create (m : Method) (pool : Option Pool) (args : List Int32) : Except Stop Frame :=
  if m.maxLocals.toInt < args.length then
    .error (.fault (.frame
      { cause := .excessArguments args.length m.maxLocals, signature := m.signature, pc := none,
        op := ⟨0⟩ }))
  else if !addressable m.maxLocals then .error (.crash .hugeLocals)
  else if !addressable m.maxStack then .error (.crash .hugeStack)
  else
    .ok
      { method := m, pool, pc := 0,
        locals := args.toArray ++ Array.replicate (m.maxLocals.toInt.toNat - args.length) 0,
        stack := #[], current := 0, executed := 0 }

def faultAt (f : Frame) (cause : FaultCause) : Stop :=
  .fault (.frame
    { cause, signature := f.method.signature, pc := some f.current,
      op := (f.method.code[f.current]?.map Instruction.op).getD ⟨0⟩ })

def raise {α : Type} (cause : FaultCause) : FrameM α := do throw ((← get).faultAt cause)

def push (v : Int32) : FrameM Unit := do
  let f ← get
  if f.method.maxStack.toInt ≤ f.stack.size then raise (.fullStack f.method.maxStack)
  else set { f with stack := f.stack.push v }

def pop : FrameM Int32 := do
  let f ← get
  match f.stack.back? with
  | none => raise .emptyStack
  | some v =>
    set { f with stack := f.stack.pop }
    return v

/-- Takes the top `count` values, the lowest of them first. -/
def popArgs (count : Int64) : FrameM (List Int32) := do
  let f ← get
  let n := count.toInt.toNat
  if count < 0 then throw (.crash .negativeArguments)
  else if f.stack.size < n then raise (.missingArguments n f.stack.size)
  else
    let below := f.stack.size - n
    set { f with stack := f.stack.take below }
    return (f.stack.drop below).toList

def load (slot : Int) : FrameM Int32 := do
  let f ← get
  if slot < 0 then raise (.badLocal slot f.locals.size)
  else match f.locals[slot.toNat]? with
    | some v => return v
    | none => raise (.badLocal slot f.locals.size)

def store (slot : Int) (v : Int32) : FrameM Unit := do
  let f ← get
  if 0 ≤ slot ∧ slot < f.locals.size then
    set { f with locals := f.locals.setIfInBounds slot.toNat v }
  else raise (.badLocal slot f.locals.size)

/-- Continues at an instruction index; the end of the code is allowed. -/
def jump (target : Int32) : FrameM Unit := do
  let f ← get
  let size := f.method.code.size
  if 0 ≤ target.toInt ∧ target.toInt ≤ size then set { f with pc := target.toInt.toNat }
  else raise (.badJump target.toInt size)

def callee (i : Instruction) : FrameM Bytes := do
  let f ← get
  let resolved : Except Pool.ResolveError Bytes ←
    match f.pool with
    | some pool => pure (pool.resolve i.poolIndex)
    | none =>
      if i.poolIndex = 0 then pure (.error (.outOfRange 0)) else throw (.crash .noPool)
  match resolved with
  | .ok signature => return signature
  | .error e => throw (.fault (.constant f.method.signature f.current i.op e))

/-- Executes an instruction that the frame has moved past already. -/
def execute (i : Instruction) : FrameM (Option Signal) := do
  match i.op.mnemonic? with
  | some .iconstM1 => push (-1); return none
  | some .iconst0 => push 0; return none
  | some .iconst1 => push 1; return none
  | some .iconst2 => push 2; return none
  | some .iconst3 => push 3; return none
  | some .iconst4 => push 4; return none
  | some .iconst5 => push 5; return none
  | some .bipush | some .sipush => push i.a; return none
  | some .iload | some .iload0 | some .iload1 | some .iload2 | some .iload3 | some .aload0 =>
    push (← load (i.slot?.getD (-1)))
    return none
  | some .istore | some .istore0 | some .istore1 | some .istore2 | some .istore3 =>
    store (i.slot?.getD (-1)) (← pop)
    return none
  | some .iinc =>
    let slot := i.slot?.getD (-1)
    store slot ((← load slot) + i.b)
    return none
  | some .iadd =>
    let right ← pop
    let left ← pop
    push (left + right)
    return none
  | some .goto => jump i.a; return none
  | some .ifIcmplt =>
    let right ← pop
    let left ← pop
    if left < right then jump i.a
    return none
  | some .returnVoid => return some .ended
  | some .ireturn => return some (.returned (← pop))
  | some .invokestatic => return some (.invoke (← callee i) false)
  | some .invokespecial => return some (.invoke (← callee i) true)
  | none => raise (.badOpcode i.op)

/-- The instruction that comes next; none at the end of the code. -/
def next? (f : Frame) : Option Instruction := f.method.code[f.pc]?

def advance (f : Frame) : Frame :=
  { f with current := f.pc, pc := f.pc + 1, executed := f.executed + 1 }

/-- Executes one instruction. The end of the code ends the frame without one. -/
def step : FrameM (Option Signal) := do
  match (← get).next? with
  | none => return some .ended
  | some i =>
    modify advance
    execute i

/-- Runs until the frame signals, for at most `fuel` instructions. -/
def run : Nat → FrameM (Option Signal)
  | 0 => return none
  | fuel + 1 => do
    match ← step with
    | some signal => return some signal
    | none => run fuel

end Frame

end MiniJvm
