import MiniJvm.Machine.Registry

/-!
# Faults

There is no verifier, so a running method may break the rules of its frame, name a constant that
has no text or call a method that is not loaded. Each of these ends the run.
-/

namespace MiniJvm

/-- The rule of a frame that was broken. -/
inductive FaultReason where
  | stackUnderflow
  | stackOverflow
  | invalidLocal
  | invalidJump
  | unknownOpcode
  deriving DecidableEq, Repr

namespace FaultReason

def name : FaultReason → String
  | .stackUnderflow => "operand stack underflow"
  | .stackOverflow => "operand stack overflow"
  | .invalidLocal => "invalid local index"
  | .invalidJump => "invalid jump target"
  | .unknownOpcode => "unknown opcode"

/-- The reason with a number; they are numbered from one. -/
def ofCode? : Nat → Option FaultReason
  | 1 => some .stackUnderflow
  | 2 => some .stackOverflow
  | 3 => some .invalidLocal
  | 4 => some .invalidJump
  | 5 => some .unknownOpcode
  | _ => none

def nameOfCode (n : Nat) : Bytes :=
  match ofCode? n with
  | some r => r.name
  | none => "FaultReason(" ++ Bytes.ofNat n ++ ")"

end FaultReason

/-- What exactly happened in a frame. -/
inductive FaultCause where
  | emptyStack
  | missingArguments (need have_ : Nat)
  | fullStack (limit : Int64)
  | badLocal (slot : Int) (locals : Nat)
  | excessArguments (count : Nat) (locals : Int64)
  | badJump (target : Int) (size : Nat)
  | badOpcode (op : Opcode)
  deriving DecidableEq, Repr

namespace FaultCause

def reason : FaultCause → FaultReason
  | .emptyStack | .missingArguments .. => .stackUnderflow
  | .fullStack _ => .stackOverflow
  | .badLocal .. | .excessArguments .. => .invalidLocal
  | .badJump .. => .invalidJump
  | .badOpcode _ => .unknownOpcode

/-- The numbers behind a fault; none for an empty stack. -/
def detail : FaultCause → Bytes
  | .emptyStack => []
  | .missingArguments need have_ =>
    "need " ++ Bytes.ofNat need ++ " arguments, have " ++ Bytes.ofNat have_
  | .fullStack limit => "max stack " ++ Bytes.ofInt limit.toInt
  | .badLocal slot locals => "slot " ++ Bytes.ofInt slot ++ " of " ++ Bytes.ofNat locals
  | .excessArguments count locals =>
    Bytes.ofNat count ++ " argument slots exceed " ++ Bytes.ofInt locals.toInt ++ " locals"
  | .badJump target size => "target " ++ Bytes.ofInt target ++ " of " ++ Bytes.ofNat size
  | .badOpcode op => "0x" ++ Bytes.upperHex op.byte

end FaultCause

structure FrameFault where
  cause : FaultCause
  /-- The method that was running. -/
  signature : Bytes
  /-- The index of the instruction; none while the frame was set up. -/
  pc : Option Nat
  op : Opcode
  deriving DecidableEq, Repr

def FrameFault.message (f : FrameFault) : Bytes :=
  let place : Bytes :=
    match f.pc with
    | some pc => f.signature ++ " pc=" ++ Bytes.ofNat pc ++ " " ++ f.op.name
    | none => f.signature
  let detail : Bytes := if f.cause.detail.isEmpty then [] else ": " ++ f.cause.detail
  place ++ ": " ++ (f.cause.reason.name : Bytes) ++ detail

inductive FaultKind where
  | constantResolution
  | registryLookup
  | frame
  deriving DecidableEq, Repr

namespace FaultKind

def name : FaultKind → String
  | .constantResolution => "ConstantResolutionError"
  | .registryLookup => "RegistryLookupError"
  | .frame => "FrameFault"

/-- The kind with a number; they are numbered from one. -/
def ofCode? : Nat → Option FaultKind
  | 1 => some .constantResolution
  | 2 => some .registryLookup
  | 3 => some .frame
  | _ => none

def nameOfCode (n : Nat) : Bytes :=
  match ofCode? n with
  | some k => k.name
  | none => "FaultKind(" ++ Bytes.ofNat n ++ ")"

end FaultKind

/-- Why a run aborts. -/
inductive Fault where
  /-- A call at an instruction of a method names a constant without a text. -/
  | constant (signature : Bytes) (pc : Nat) (op : Opcode) (error : Pool.ResolveError)
  | lookup (error : LookupError)
  | frame (fault : FrameFault)
  deriving DecidableEq, Repr

namespace Fault

def kind : Fault → FaultKind
  | .constant .. => .constantResolution
  | .lookup _ => .registryLookup
  | .frame _ => .frame

def message : Fault → Bytes
  | .constant signature pc op error =>
    signature ++ " pc=" ++ Bytes.ofNat pc ++ " " ++ op.name ++ ": " ++ error.message
  | .lookup error => error.message
  | .frame fault => fault.message

end Fault

/-- What stops the machine itself rather than the run. -/
inductive Crash where
  /-- A frame wants more locals than memory can address. -/
  | hugeLocals
  /-- A frame wants a larger operand stack than memory can address. -/
  | hugeStack
  /-- A call is made in a class that has no constants. -/
  | noPool
  /-- A method takes fewer than no arguments. -/
  | negativeArguments
  deriving DecidableEq, Repr

/-- The text that a crash leaves in the log. -/
def Crash.message : Crash → Bytes
  | .hugeLocals => "runtime error: makeslice: len out of range"
  | .hugeStack => "runtime error: makeslice: cap out of range"
  | .noPool => "runtime error: invalid memory address or nil pointer dereference"
  | .negativeArguments => "runtime error: slice bounds out of range"

/-- Why the machine stops before the end of a run. -/
inductive Stop where
  | fault (f : Fault)
  | crash (c : Crash)
  deriving DecidableEq, Repr

end MiniJvm
