import MiniJvm.Assembly.Token

/-!
# Stack depth

How deep the operand stack of a method can get is found by following all paths through its code.
Every instruction must see the same depth on every path to it.
-/

namespace MiniJvm.Assembly

/-- The values an instruction takes from and leaves on the operand stack. -/
structure Effect where
  pops : Nat
  pushes : Nat
  deriving DecidableEq, Repr

/-- The part of a signature after its last colon. -/
def descriptorPart (signature : Bytes) : Bytes :=
  (signature.reverse.takeWhile (· != 58)).reverse

/-- The effect of the instruction at an index. A call takes it from the callee's descriptor. -/
def stackEffect (pool : Pool) (pc : Nat) (i : Instruction) : Except StackProblem Effect :=
  if i.op.isInvoke then
    match pool.resolve i.poolIndex with
    | .error e => .error (.unresolved pc i e)
    | .ok signature =>
      let text := descriptorPart signature
      match Descriptor.parse? text with
      | none => .error (.badDescriptor pc i text)
      | some d =>
        let receiver := if i.op = Mnemonic.invokespecial.opcode then 1 else 0
        .ok ⟨d.slots + receiver, if d.void then 0 else 1⟩
  else
    .ok ⟨((i.op.mnemonic?.bind Mnemonic.pops?).getD 0),
      ((i.op.mnemonic?.bind Mnemonic.pushes?).getD 0)⟩

def successors (pc : Nat) (i : Instruction) : List Int :=
  if i.op.isReturn then []
  else if i.op = Mnemonic.goto.opcode then [i.a.toInt]
  else if i.op = Mnemonic.ifIcmplt.opcode then [pc + 1, i.a.toInt]
  else [pc + 1]

structure Exploration where
  /-- The depth before each instruction that was reached. -/
  depths : Array (Option Nat)
  /-- The instructions still to follow, the next one first. -/
  work : List Nat
  /-- The greatest depth seen. -/
  deepest : Nat
  deriving DecidableEq, Repr

/-- Reaches an index with a depth from the instruction `i` at `pc`. -/
def reach (pc : Nat) (i : Instruction) (depth : Nat) (x : Exploration) (target : Int) :
    Except StackProblem Exploration :=
  if target = x.depths.size then .ok x
  else if target < 0 then .error (.branchOutOfRange pc i)
  else
    match x.depths[target.toNat]? with
    | none => .error (.branchOutOfRange pc i)
    | some none =>
      .ok { x with
        depths := x.depths.set! target.toNat (some depth), work := target.toNat :: x.work }
    | some (some known) =>
      if known = depth then .ok x else .error (.depthsDiffer target.toNat known depth)

def follow (code : Array Instruction) (pool : Pool) (pc : Nat) (x : Exploration) :
    Except StackProblem Exploration :=
  match code[pc]?, x.depths[pc]? with
  | some i, some (some depth) => do
    let effect ← stackEffect pool pc i
    if depth < effect.pops then .error (.underflow pc i)
    let after := depth - effect.pops + effect.pushes
    (successors pc i).foldlM (reach pc i after) { x with deepest := max x.deepest after }
  | _, _ => .ok x

/-- Follows instructions until none is left, at most `most` of them. -/
def explore (code : Array Instruction) (pool : Pool) :
    Nat → Exploration → Except StackProblem Exploration
  | 0, x => .ok x
  | most + 1, x =>
    match x.work with
    | [] => .ok x
    | pc :: work => do
      let x ← follow code pool pc { x with work }
      explore code pool most x

/-- The greatest depth on any path through the code. No instruction is followed twice. -/
def maxStack (code : List Instruction) (pool : Pool) : Except StackProblem Nat := do
  match code with
  | [] => return 0
  | _ =>
    let depths := (Array.replicate code.length (none : Option Nat)).set! 0 (some 0)
    let x ← explore code.toArray pool code.length ⟨depths, [0], 0⟩
    return x.deepest

/-- The local slots that a method needs: its arguments, a receiver unless it is static, and every
slot its code addresses. -/
def maxLocals (code : List Instruction) (argSlots : Nat) (static : Bool) : Nat :=
  code.foldl (fun n i => max n (((i.slot?.getD (-1)) + 1).toNat))
    (if static then argSlots else argSlots + 1)

end MiniJvm.Assembly
