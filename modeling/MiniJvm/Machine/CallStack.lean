import MiniJvm.Machine.Frame

/-!
# Call stacks

The call stack holds the suspended frames; the one on top runs. A frame that ends is dropped, a
returned value goes on the caller's operand stack, and a call puts a new frame on top with its
arguments taken from the caller. `CallStack.step` executes one instruction of the top frame with
whatever its signal asks for.
-/

namespace MiniJvm

/-- What a run did. Counters of 64 bits would do: a run of `n` steps counts at most `n` instructions
and `n` calls (`Registry.execute_counts`). -/
structure Stats where
  instructions : Nat := 0
  invocations : Nat := 0
  maxDepth : Nat := 0
  deriving DecidableEq, Repr

/-- What a traced run reports. -/
inductive TraceEvent where
  /-- An instruction, with the operand stack (its top last) and the locals before it. -/
  | instruction (signature : Bytes) (pc : Nat) (i : Instruction) (stack locals : Array Int32)
  | invoke (caller callee : Bytes) (args : List Int32)
  | ended (signature : Bytes)
  | returned (signature : Bytes) (value : Int32)
  deriving DecidableEq, Repr

def numbers (values : List Int32) : Bytes :=
  "[" ++ Bytes.join " " (values.map fun v => Bytes.ofInt v.toInt) ++ "]"

def TraceEvent.message : TraceEvent → Bytes
  | .instruction signature pc i stack locals =>
    signature ++ " " ++ Bytes.zeroPad 4 (Bytes.ofNat pc) ++ " " ++ Utf8.padRight 20 i.text
      ++ " stack=" ++ numbers stack.toList ++ " locals=" ++ numbers locals.toList
  | .invoke caller callee args =>
    caller ++ " invoke " ++ callee ++ " args=" ++ numbers args
  | .ended signature => signature ++ " end"
  | .returned signature value => signature ++ " return " ++ Bytes.ofInt value.toInt

structure CallStack where
  registry : Registry
  /-- The frames, the running one last. -/
  frames : Array Frame
  /-- Whether to report. All frames of a run share this flag, and no step changes it
  (`CallStack.run_trace`). -/
  trace : Bool
  /-- The reports so far, the oldest first. -/
  events : Array TraceEvent
  stats : Stats
  /-- What the bottom frame returned. -/
  result : Option Int32
  deriving Repr

inductive Progress where
  | running (c : CallStack)
  /-- No frame is left. -/
  | finished (c : CallStack)
  | stopped (why : Stop) (c : CallStack)

namespace CallStack

def create (registry : Registry) (trace : Bool) : CallStack :=
  { registry, frames := #[], trace, events := #[], stats := {}, result := none }

def depth (c : CallStack) : Nat := c.frames.size

def push (c : CallStack) (f : Frame) : CallStack :=
  let depth := c.frames.size + 1
  { c with
    frames := c.frames.push f
    stats := { c.stats with maxDepth := max c.stats.maxDepth depth } }

def drop (c : CallStack) : CallStack := { c with frames := c.frames.pop }

def restore (c : CallStack) (f : Frame) : CallStack := { c with frames := c.frames.push f }

/-- Adds a report when the run is traced. -/
@[inline] def report (c : CallStack) (e : TraceEvent) : CallStack :=
  if c.trace then { c with events := c.events.push e } else c

def countInstruction (c : CallStack) : CallStack :=
  { c with stats := { c.stats with instructions := c.stats.instructions + 1 } }

def countInvocation (c : CallStack) : CallStack :=
  { c with stats := { c.stats with invocations := c.stats.invocations + 1 } }

/-- The method under a signature with the constants of its class. -/
def find (r : Registry) (signature : Bytes) : Except LookupError (Method × Option Pool) := do
  let m ← r.lookupMethod signature
  let c ← r.lookupClass m.owner
  return (m, c.pool)

/-- Makes the frame of a called method; its arguments leave the caller. -/
def callFrame (r : Registry) (caller : Frame) (signature : Bytes) (special : Bool) :
    Except Stop (Frame × List Int32) × Frame :=
  match find r signature with
  | .error e => (.error (.fault (.lookup e)), caller)
  | .ok (m, pool) =>
    let slots := if special then m.argSlots + 1 else m.argSlots
    match Frame.popArgs slots caller with
    | (.error why, caller) => (.error why, caller)
    | (.ok args, caller) =>
      match Frame.create m pool args with
      | .error why => (.error why, caller)
      | .ok f => (.ok (f, args), caller)

/-- Hands a value that `signature` returned to the frame below, which is on top now. -/
def receive (c : CallStack) (value : Int32) : Progress :=
  match c.frames.back? with
  | none => .running { c with result := some value }
  | some caller =>
    let c := c.drop
    match Frame.push value caller with
    | (.ok (), caller) => .running (c.restore caller)
    | (.error why, caller) => .stopped why (c.restore caller)

/-- Does what the signal of frame `f`, taken off the stack, asks for. -/
def handle (c : CallStack) (f : Frame) : Signal → Progress
  | .ended => .running (c.report (.ended f.method.signature))
  | .returned value => (c.report (.returned f.method.signature value)).receive value
  | .invoke signature special =>
    match callFrame c.registry f signature special with
    | (.error why, f) => .stopped why (c.restore f)
    | (.ok (callee, args), f) =>
      let c := c.countInvocation.report (.invoke f.method.signature signature args)
      .running ((c.restore f).push callee)

/-- The report of the instruction that comes next in a frame. -/
def reportNext (c : CallStack) (f : Frame) : CallStack :=
  match f.next? with
  | some i =>
    (c.countInstruction).report (.instruction f.method.signature f.pc i f.stack f.locals)
  | none => c

def step (c : CallStack) : Progress :=
  match c.frames.back? with
  | none => .finished c
  | some f =>
    let c := c.drop.reportNext f
    match Frame.step f with
    | (.error why, f) => .stopped why (c.restore f)
    | (.ok none, f) => .running (c.restore f)
    | (.ok (some signal), f) => c.handle f signal

def run : Nat → CallStack → Progress
  | 0, c => .running c
  | fuel + 1, c =>
    match c.step with
    | .running c => run fuel c
    | other => other

end CallStack

end MiniJvm
