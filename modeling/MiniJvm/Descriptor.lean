import MiniJvm.Text.Quoted

/-!
# Method descriptors

A descriptor `(F…F)R` lists the types of a method's arguments and its result. A field type is a
letter of `BCFISZJD`, a class `Lname;` or an array `[F`. Arguments of type `J` and `D` take two
local slots, all others one.
-/

namespace MiniJvm

structure Descriptor where
  /-- The local slots of the arguments. -/
  slots : Nat
  /-- Whether the method returns no value. -/
  void : Bool
  deriving DecidableEq, Repr

namespace Descriptor

/-- The slots of the field type at the start of a text, and what follows it. -/
def fieldType : Bytes → Option (Nat × Bytes)
  | [] => none
  | c :: rest =>
    if c = 74 || c = 68 then some (2, rest)
    else if c = 76 then
      match rest.dropWhile (· != 59) with
      | [] => none
      | _ :: after => if rest.head? = some 59 then none else some (1, after)
    else if c = 91 then (fieldType rest).map fun (_, after) => (1, after)
    else if [66, 67, 70, 73, 83, 90].contains c then some (1, rest)
    else none

/-- The slots of at most `most` field types up to the closing bracket, added to `slots`, and what
follows the bracket. -/
def arguments : Nat → Nat → Bytes → Option (Nat × Bytes)
  | most, slots, s =>
    match s with
    | [] => none
    | c :: rest =>
      if c = 41 then some (slots, rest)
      else match most with
        | 0 => none
        | most + 1 =>
          match fieldType s with
          | none => none
          | some (size, after) => arguments most (slots + size) after

/-- Whether a text is the result type `V`; none when it is no result type. -/
def result? (s : Bytes) : Option Bool :=
  if s = [86] then some true
  else match fieldType s with
    | some (_, []) => some false
    | _ => none

/-- Reads a descriptor. Each argument type has a byte of its own at least. -/
def parse? (s : Bytes) : Option Descriptor :=
  match s with
  | 40 :: rest =>
    match arguments rest.length 0 rest with
    | none => none
    | some (slots, after) => (result? after).map fun void => ⟨slots, void⟩
  | _ => none

def malformed (s : Bytes) : Bytes := "malformed method descriptor " ++ Quoted.quote s

end Descriptor

end MiniJvm
