import MiniJvm.Assembly.Token

/-!
# Parsing assembly source

A source is a sequence of classes, each a header line, methods and a line `end`; a method is a
header line, body lines and a line `end`. Empty lines do not count. The parser takes one line of
tokens at a time. After a problem it goes on with the next line, so it finds all problems and
keeps what it understood.
-/

namespace MiniJvm.Assembly

/-- A body line: a label, an instruction, or both. -/
structure BodyLine where
  pos : Position
  /-- The label before the instruction; empty when there is none. -/
  label : Bytes
  /-- The name of the instruction; empty when there is none. -/
  mnemonic : Bytes
  operands : List Token
  deriving DecidableEq, Repr

/-- A method as written. Sizes that the header does not give are absent. -/
structure MethodDecl where
  pos : Position
  name : Bytes
  descriptor : Bytes
  static : Bool
  maxStack : Option Nat
  maxLocals : Option Nat
  body : Array BodyLine
  deriving DecidableEq, Repr

structure ClassDecl where
  pos : Position
  name : Bytes
  /-- The name after `extends`; empty when there is none. -/
  superName : Bytes
  methods : Array MethodDecl
  deriving DecidableEq, Repr

inductive Context where
  | top
  | inClass (c : ClassDecl)
  | inMethod (c : ClassDecl) (m : MethodDecl)
  /-- In the body of a method whose header makes no sense. -/
  | skipping (c : ClassDecl)
  deriving DecidableEq, Repr

/-- The classes and problems found so far, and where the parser stands. -/
structure ParseState where
  context : Context
  classes : Array ClassDecl
  errors : Array SourceError
  deriving DecidableEq, Repr

namespace ParseState

def start : ParseState := ⟨.top, #[], #[]⟩

def report (s : ParseState) (pos : Position) (problem : Problem) : ParseState :=
  { s with errors := s.errors.push ⟨pos, problem⟩ }

def enter (s : ParseState) (context : Context) : ParseState := { s with context }

def endOfLine (s : ParseState) : List Token → ParseState
  | [] => s
  | t :: _ => s.report t.pos (.afterEnd t)

end ParseState

def classHeader (pos : Position) : List Token → Option ClassDecl
  | [name] => if name.kind = .word then some ⟨pos, name.literal, [], #[]⟩ else none
  | [name, keyword, parent] =>
    if name.kind = .word && keyword.isWord "extends" && parent.kind = .word then
      some ⟨pos, name.literal, parent.literal, #[]⟩
    else none
  | _ => none

def size? (t : Token) : Option Nat :=
  match t.kind with
  | .integer v => if 0 ≤ v ∧ v ≤ 65535 then some v.toNat else none
  | _ => none

def methodSizes (s : ParseState) (m : MethodDecl) : List Token → ParseState × MethodDecl
  | [] => (s, m)
  | [t] => (s.report t.pos (.expectedSize t), m)
  | t :: v :: rest =>
    match size? v with
    | none => (s.report t.pos (.expectedSize t), m)
    | some n =>
      if t.isWord "stack" then methodSizes s { m with maxStack := some n } rest
      else if t.isWord "locals" then methodSizes s { m with maxLocals := some n } rest
      else methodSizes (s.report t.pos (.unknownAttribute t)) m rest

def methodHeader (s : ParseState) (c : ClassDecl) (pos : Position) (header : List Token) :
    ParseState :=
  let (static, header) : Bool × List Token :=
    match header with
    | t :: rest => if t.isWord "static" then (true, rest) else (false, header)
    | [] => (false, [])
  let malformed := (s.report pos .malformedMethodHeader).enter (.skipping c)
  match header with
  | name :: descriptor :: sizes =>
    if name.kind = .word && descriptor.kind = .word then
      let m : MethodDecl :=
        { pos, name := name.literal, descriptor := descriptor.literal, static,
          maxStack := none, maxLocals := none, body := #[] }
      let (s, m) := methodSizes s m sizes
      s.enter (.inMethod c m)
    else malformed
  | _ => malformed

def splitLabel : List Token → Bytes × List Token
  | [] => ([], [])
  | t :: rest => if t.kind = .label then (t.literal, rest) else ([], t :: rest)

def bodyLine (s : ParseState) (pos : Position) (line : List Token) : ParseState × BodyLine :=
  let (label, rest) := splitLabel line
  match rest with
  | [] => (s, ⟨pos, label, [], []⟩)
  | t :: operands =>
    if t.kind = .word then (s, ⟨pos, label, t.literal, operands⟩)
    else (s.report t.pos (.expectedInstruction t), ⟨pos, label, [], []⟩)

namespace ParseState

def topLine (s : ParseState) (t : Token) (rest : List Token) : ParseState :=
  if t.isWord "class" then
    match classHeader t.pos rest with
    | some c => s.enter (.inClass c)
    | none => (s.report t.pos .malformedClassHeader).enter (.inClass ⟨t.pos, [], [], #[]⟩)
  else s.report t.pos (.expectedClass t)

def classLine (s : ParseState) (c : ClassDecl) (t : Token) (rest : List Token) : ParseState :=
  if t.isWord "end" then
    { (s.endOfLine rest) with context := .top, classes := s.classes.push c }
  else if t.isWord "method" then methodHeader s c t.pos rest
  else (s.report t.pos (.expectedMethod t)).enter (.inClass c)

def methodLine (s : ParseState) (c : ClassDecl) (m : MethodDecl) (t : Token) (rest : List Token) :
    ParseState :=
  if t.isWord "end" then
    (s.endOfLine rest).enter (.inClass { c with methods := c.methods.push m })
  else
    let (s, line) := bodyLine s t.pos (t :: rest)
    s.enter (.inMethod c { m with body := m.body.push line })

def skippedLine (s : ParseState) (c : ClassDecl) (t : Token) (rest : List Token) : ParseState :=
  if t.isWord "end" then (s.endOfLine rest).enter (.inClass c) else s.enter (.skipping c)

/-- Takes one line of tokens. What the parser is in the middle of is taken out of the state while
it grows. -/
def line (s : ParseState) : List Token → ParseState
  | [] => s
  | t :: rest =>
    match s.context with
    | .top => s.topLine t rest
    | .inClass c => (s.enter .top).classLine c t rest
    | .inMethod c m => (s.enter .top).methodLine c m t rest
    | .skipping c => (s.enter .top).skippedLine c t rest

def closeClass (s : ParseState) (c : ClassDecl) : ParseState :=
  let s := s.report c.pos (.classWithoutEnd c.name)
  { s with context := .top, classes := s.classes.push c }

def close (s : ParseState) : ParseState :=
  match s.context with
  | .top => s
  | .inClass c | .skipping c => s.closeClass c
  | .inMethod c m =>
    (s.report m.pos (.methodWithoutEnd m.name)).closeClass
      { c with methods := c.methods.push m }

end ParseState

def lines : List Token → List (List Token)
  | [] => [[]]
  | t :: rest =>
    match t.kind with
    | .endOfFile => [[]]
    | .newline => [] :: lines rest
    | _ =>
      match lines rest with
      | [] => [[t]]
      | l :: ls => (t :: l) :: ls

def parseRecovering (source : Bytes) : ParseState :=
  ((lines (tokenize source)).foldl ParseState.line .start).close

def parse (source : Bytes) : Except (List SourceError) (List ClassDecl) :=
  let s := parseRecovering source
  if s.errors.isEmpty then .ok s.classes.toList else .error s.errors.toList

end MiniJvm.Assembly
