import MiniJvm.Code.Instruction
import MiniJvm.Descriptor
import MiniJvm.Number.Literal
import MiniJvm.Pool.Basic
import MiniJvm.Text.Quoted

/-!
# Tokens of assembly source

Source text is a sequence of words between blanks. Line ends count; `//` where a word could start
begins a comment up to the line end. A word is an integer literal, a label (a name and one colon
at its end) or a plain word. Each token knows its place in the source.
-/

namespace MiniJvm.Assembly

/-- A place in the source. Lines and columns count from one, columns and offsets in bytes. -/
structure Position where
  offset : Nat
  line : Nat
  column : Nat
  deriving DecidableEq, Repr

namespace Position

def start : Position := ⟨0, 1, 1⟩

def next (p : Position) : Position := ⟨p.offset + 1, p.line, p.column + 1⟩

def nextLine (p : Position) : Position := ⟨p.offset + 1, p.line + 1, 1⟩

end Position

inductive TokenKind where
  | endOfFile
  | newline
  | integer (value : Int)
  | label
  | word
  deriving DecidableEq, Repr

namespace TokenKind

def name : TokenKind → String
  | .endOfFile => "EOF"
  | .newline => "NEWLINE"
  | .integer _ => "INTEGER"
  | .label => "LABEL"
  | .word => "WORD"

/-- The name of a numbered kind; they are numbered from zero. -/
def nameOfCode : Int → Bytes
  | 0 => "EOF"
  | 1 => "NEWLINE"
  | 2 => "INTEGER"
  | 3 => "LABEL"
  | 4 => "WORD"
  | n => "TokenType(" ++ Bytes.ofInt n ++ ")"

end TokenKind

/-- A token. The literal of a label is its name without the colon. -/
structure Token where
  kind : TokenKind
  literal : Bytes
  pos : Position
  deriving DecidableEq, Repr

namespace Token

def text (t : Token) : Bytes :=
  match t.kind with
  | .newline => "newline"
  | .endOfFile => "end of file"
  | _ => Quoted.quote t.literal

def isWord (t : Token) (w : Bytes) : Bool := t.kind = .word && t.literal == w

def ofWord (pos : Position) (w : Bytes) : Token :=
  match Literal.int64? w with
  | some value => ⟨.integer value, w, pos⟩
  | none =>
    if w.length > 1 && w.getLast? = some 58 && w.count 58 = 1 then ⟨.label, w.dropLast, pos⟩
    else ⟨.word, w, pos⟩

def newline (pos : Position) : Token := ⟨.newline, "\n", pos⟩

def endOfFile (pos : Position) : Token := ⟨.endOfFile, [], pos⟩

end Token

def isBlank (b : UInt8) : Bool := b = 32 || b = 9 || b = 13

inductive Mode where
  | between
  | comment
  /-- A word that started at a place, its bytes so far in reverse. -/
  | word (start : Position) (reversed : Bytes)
  deriving DecidableEq, Repr

def Mode.pending : Mode → List Token
  | .word start reversed => [Token.ofWord start reversed.reverse]
  | _ => []

def tokensFrom : Mode → Position → Bytes → List Token
  | mode, p, [] => mode.pending ++ [.endOfFile p]
  | mode, p, b :: rest =>
    if b = 10 then mode.pending ++ .newline p :: tokensFrom .between p.nextLine rest
    else match mode with
      | .comment => tokensFrom .comment p.next rest
      | .between =>
        if isBlank b then tokensFrom .between p.next rest
        else if b = 47 && rest.head? = some 47 then tokensFrom .comment p.next rest
        else tokensFrom (.word p [b]) p.next rest
      | .word start reversed =>
        if isBlank b then Token.ofWord start reversed.reverse :: tokensFrom .between p.next rest
        else tokensFrom (.word start (b :: reversed)) p.next rest

/-- The tokens of a source text; the last one marks its end. -/
def tokenize (source : Bytes) : List Token := tokensFrom .between .start source

/-! ## Problems of assembly source

Everything that can be wrong with a source text, with its wording. A source is refused with all
the problems found in it, each with its place. -/

/-- Why the depth of the operand stack cannot be told. -/
inductive StackProblem where
  /-- The method that a call names has no text. -/
  | unresolved (pc : Nat) (i : Instruction) (error : Pool.ResolveError)
  | badDescriptor (pc : Nat) (i : Instruction) (descriptor : Bytes)
  | underflow (pc : Nat) (i : Instruction)
  | branchOutOfRange (pc : Nat) (i : Instruction)
  | depthsDiffer (pc : Nat) (first second : Nat)
  deriving DecidableEq, Repr

def located (pc : Nat) (i : Instruction) : Bytes :=
  "instruction " ++ Bytes.ofNat pc ++ " (" ++ i.text ++ ")"

def StackProblem.message : StackProblem → Bytes
  | .unresolved pc i error => located pc i ++ ": " ++ error.message
  | .badDescriptor pc i descriptor => located pc i ++ ": " ++ Descriptor.malformed descriptor
  | .underflow pc i => located pc i ++ ": stack underflow"
  | .branchOutOfRange pc i => located pc i ++ ": branch out of range"
  | .depthsDiffer pc first second =>
    "instruction " ++ Bytes.ofNat pc ++ ": stack depth " ++ Bytes.ofNat first ++ " and "
      ++ Bytes.ofNat second ++ " on different paths"

inductive OperandProblem where
  | expectedInteger (got : Token)
  | outOfRange (value low high : Int)
  | undefinedLabel (name : Bytes)
  | malformedReference (text : Bytes)
  | badDescriptor (descriptor : Bytes)
  deriving DecidableEq, Repr

def OperandProblem.message : OperandProblem → Bytes
  | .expectedInteger got => "expected integer, got " ++ got.text
  | .outOfRange value low high =>
    Bytes.ofInt value ++ " out of range [" ++ Bytes.ofInt low ++ ", " ++ Bytes.ofInt high ++ "]"
  | .undefinedLabel name => "undefined label " ++ name
  | .malformedReference text =>
    "malformed method reference " ++ Quoted.quote text ++ "; want Class.name:descriptor"
  | .badDescriptor descriptor => Descriptor.malformed descriptor

inductive Problem where
  | expectedClass (got : Token)
  | malformedClassHeader
  | classWithoutEnd (name : Bytes)
  | expectedMethod (got : Token)
  | malformedMethodHeader
  | expectedSize (got : Token)
  | unknownAttribute (got : Token)
  | methodWithoutEnd (name : Bytes)
  | expectedInstruction (got : Token)
  | afterEnd (got : Token)
  | duplicateMethod (key : Bytes)
  | poolOverflow (owner : Bytes)
  | badDescriptor (method descriptor : Bytes)
  | duplicateLabel (label : Bytes)
  | unknownInstruction (mnemonic : Bytes)
  | operandCount (m : Mnemonic) (want got : Nat)
  | operand (m : Mnemonic) (problem : OperandProblem)
  | stack (method : Bytes) (problem : StackProblem)
  deriving DecidableEq, Repr

def Problem.message : Problem → Bytes
  | .expectedClass got => "expected class, got " ++ got.text
  | .malformedClassHeader => "malformed class header; want: class Name [extends Super]"
  | .classWithoutEnd name => "class " ++ name ++ ": missing end"
  | .expectedMethod got => "expected method or end, got " ++ got.text
  | .malformedMethodHeader =>
    "malformed method header; want: method [static] name descriptor [stack N] [locals N]"
  | .expectedSize got => "expected stack N or locals N, got " ++ got.text
  | .unknownAttribute got => "unknown method attribute " ++ got.text
  | .methodWithoutEnd name => "method " ++ name ++ ": missing end"
  | .expectedInstruction got => "expected instruction, got " ++ got.text
  | .afterEnd got => "unexpected " ++ got.text ++ " after end"
  | .duplicateMethod key => "duplicate method " ++ key
  | .poolOverflow owner => "class " ++ owner ++ ": constant pool overflow"
  | .badDescriptor method descriptor =>
    "method " ++ method ++ ": " ++ Descriptor.malformed descriptor
  | .duplicateLabel label => "duplicate label " ++ label
  | .unknownInstruction mnemonic => "unknown instruction " ++ Quoted.quote mnemonic
  | .operandCount m want got =>
    (m.name : Bytes) ++ " takes " ++ Bytes.ofNat want ++ " operand(s), got " ++ Bytes.ofNat got
  | .operand m problem => (m.name : Bytes) ++ ": " ++ problem.message
  | .stack method problem => "method " ++ method ++ ": " ++ problem.message

structure SourceError where
  pos : Position
  problem : Problem
  deriving DecidableEq, Repr

def SourceError.message (e : SourceError) : Bytes :=
  "line " ++ Bytes.ofNat e.pos.line ++ ": " ++ e.problem.message

def errorText (errors : List SourceError) : Bytes :=
  Bytes.join "\n" (errors.map SourceError.message)

end MiniJvm.Assembly
