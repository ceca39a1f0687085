import MiniJvm.Toml.Scalar
import Std.Data.HashSet.Basic

/-!
# TOML documents

The statements of a text build one table. A key is defined once; only a table that came up on the
way to something else, or that a dotted key or braces just opened, may be defined once more. That
second definition leaves it as it is, unless its key is marked as one of an array: then it is
replaced.

A text is read as the list of its headings and assignments, in the order in which they stand. What
they mean together is decided afterwards.
-/

namespace MiniJvm.Toml

/-- A value as it is written. -/
inductive Written where
  | scalar (value : Value)
  | array (items : List Written)
  | table (entries : List (List Bytes × Written))
  deriving Repr

inductive Statement where
  /-- The heading `[path]`. -/
  | heading (path : List Bytes)
  /-- The heading `[[path]]`. -/
  | itemHeading (path : List Bytes)
  | assign (path : List Bytes) (value : Written)
  deriving Repr

def skipBlanks (s : Bytes) : Bytes := s.dropWhile isBlank

def skipComment (s : Bytes) : Bytes := s.dropWhile fun b => !isNewline b

/-- The text after blanks, newlines and comments, inside a comment or not. -/
def skipSpaceFrom (inComment : Bool) : Bytes → Bytes
  | [] => []
  | b :: rest =>
    if isNewline b then skipSpaceFrom false rest
    else if inComment || b == 35 then skipSpaceFrom true rest
    else if isBlank b then skipSpaceFrom false rest
    else b :: rest

def skipSpace (s : Bytes) : Bytes := skipSpaceFrom false s

def inBareKey (b : UInt8) : Bool :=
  isDigit b || (97 ≤ Bytes.lower b && Bytes.lower b ≤ 122) || b == 95 || b == 45

def keyPart? (s : Bytes) : Option (Bytes × Bytes) :=
  match s with
  | 34 :: rest => basicString rest
  | 39 :: rest => scanLiteral rest
  | s =>
    let (name, rest) := span inBareKey s
    if name.isEmpty then none else some (name, rest)

/-- The parts of a key between dots, and the text after the blanks behind it. -/
def path? : Nat → Bytes → Option (List Bytes × Bytes)
  | 0, _ => none
  | fuel + 1, s => do
    let (part, rest) ← keyPart? (skipBlanks s)
    match skipBlanks rest with
    | 46 :: rest => do
      let (parts, rest) ← path? fuel rest
      return (part :: parts, rest)
    | rest => return ([part], rest)

mutual

def value? : Nat → Bytes → Option (Written × Bytes)
  | 0, _ => none
  | fuel + 1, s =>
    match skipBlanks s with
    | 91 :: rest => (items? fuel rest).map fun r => (.array r.1, r.2)
    | 123 :: rest => (fields? fuel rest).map fun r => (.table r.1, r.2)
    | s => (scalar? s).map fun r => (.scalar r.1, r.2)

def items? : Nat → Bytes → Option (List Written × Bytes)
  | 0, _ => none
  | fuel + 1, s =>
    match skipSpace s with
    | 93 :: rest => some ([], rest)
    | s => do
      let (item, rest) ← value? fuel s
      match skipSpace rest with
      | 44 :: rest => do
        let (items, rest) ← items? fuel rest
        return (item :: items, rest)
      | 93 :: rest => return ([item], rest)
      | _ => none

def fields? : Nat → Bytes → Option (List (List Bytes × Written) × Bytes)
  | 0, _ => none
  | fuel + 1, s =>
    match skipSpace s with
    | 125 :: rest => some ([], rest)
    | s => do
      let (field, rest) ← assignment? fuel s
      match skipSpace rest with
      | 44 :: rest => do
        let (fields, rest) ← fields? fuel rest
        return (field :: fields, rest)
      | 125 :: rest => return ([field], rest)
      | _ => none

def assignment? : Nat → Bytes → Option ((List Bytes × Written) × Bytes)
  | 0, _ => none
  | fuel + 1, s => do
    let (path, rest) ← path? fuel s
    match rest with
    | 61 :: rest => do
      let (value, rest) ← value? fuel rest
      return ((path, value), rest)
    | _ => none

end

/-- The text after the end of a line on which nothing more may stand than a comment. -/
def endLine? (s : Bytes) : Option Bytes :=
  match skipBlanks s with
  | [] => some []
  | 35 :: rest => some (skipComment rest)
  | b :: rest => if isNewline b then some rest else none

/-- A heading or an assignment. The fuel is more than twice the length of the text. -/
def statement? (fuel : Nat) (s : Bytes) : Option (Statement × Bytes) :=
  match s with
  | 91 :: 91 :: rest => do
    let (path, rest) ← path? fuel rest
    match rest with
    | 93 :: 93 :: rest => return (.itemHeading path, rest)
    | _ => none
  | 91 :: rest => do
    let (path, rest) ← path? fuel rest
    match rest with
    | 93 :: rest => return (.heading path, rest)
    | _ => none
  | s => do
    let ((path, value), rest) ← assignment? fuel s
    return (.assign path value, rest)

/-- The statements of a text. Each takes a byte at least, so the fuel stays above the length. -/
def statements? : Nat → Bytes → Option (List Statement)
  | 0, _ => none
  | fuel + 1, s =>
    match skipSpace s with
    | [] => some []
    | s => do
      let (first, rest) ← statement? (2 * fuel + 4) s
      let others ← statements? fuel (← endLine? rest)
      return first :: others

def dropMark : Bytes → Bytes
  | 0xFF :: 0xFE :: rest => rest
  | 0xFE :: 0xFF :: rest => rest
  | 0xEF :: 0xBB :: 0xBF :: rest => rest
  | s => s

/-- Whether a text has no control characters but tabs and line ends. -/
def isPlain : Bytes → Bool
  | [] => true
  | 13 :: 10 :: rest => isPlain rest
  | b :: rest => (b == 9 || b == 10 || (32 ≤ b && b != 127)) && isPlain rest

def parseStatements (text : Bytes) : Option (List Statement) :=
  let s := dropMark text
  if Utf8.valid s && isPlain s then statements? (s.length + 1) s else none

/-! ## TOML documents -/

structure Draft where
  root : Entries := []
  /-- Tables that may be defined once more. -/
  implied : Std.HashSet (List Bytes) := {}
  /-- Keys that are marked as those of arrays. -/
  arrays : Std.HashSet (List Bytes) := {}

/-- The entries with the table at a path changed; of an array of tables the last one is meant. -/
def updateAt (change : Entries → Option Entries) : List Bytes → Entries → Option Entries
  | [], entries => change entries
  | key :: path, entries =>
    match entries.get? key with
    | some (.table inner) => do
      return entries.put key (.table (← updateAt change path inner))
    | some (.tables items) =>
      match items.getLast? with
      | none => none
      | some last => do
        return entries.put key (.tables (items.dropLast ++ [← updateAt change path last]))
    | _ => none

/-- Makes the tables on the way of a path that are not there yet, and gives the paths of those that
were made. The way before is given backwards. -/
def makeWay (before : List Bytes) : List Bytes → Entries → Option (Entries × List (List Bytes))
  | [], entries => some (entries, [])
  | key :: path, entries => do
    let here := key :: before
    match entries.get? key with
    | none =>
      let (inner, made) ← makeWay here path []
      return (entries.put key (.table inner), here.reverse :: made)
    | some (.table inner) =>
      let (inner, made) ← makeWay here path inner
      return (entries.put key (.table inner), made)
    | some (.tables items) =>
      let (last, made) ← makeWay here path (← items.getLast?)
      return (entries.put key (.tables (items.dropLast ++ [last])), made)
    | some _ => none

def tableAt? : List Bytes → Entries → Option Entries
  | [], entries => some entries
  | key :: path, entries =>
    match entries.get? key with
    | some (.table inner) => tableAt? path inner
    | some (.tables items) => items.getLast?.bind (tableAt? path)
    | _ => none

/-- The entries with a value under a dotted key; tables on the way are made. -/
def putAt? (value : Value) : List Bytes → Entries → Option Entries
  | [], _ => none
  | [key], entries => some (entries.put key value)
  | key :: path, entries =>
    match entries.get? key with
    | none => do return entries.put key (.table (← putAt? value path []))
    | some (.table inner) => do return entries.put key (.table (← putAt? value path inner))
    | some _ => none

def Written.isArray : Written → Bool
  | .array _ => true
  | _ => false

namespace Draft

/-- The draft with a value under a key of the table at a path. -/
def put (d : Draft) (context : List Bytes) (key : Bytes) (value : Value) : Option Draft := do
  let root ← updateAt (fun entries => some (entries.put key value)) context d.root
  return { d with root }

def define (d : Draft) (context : List Bytes) (key : Bytes) (value : Value) : Option Draft := do
  let path := context ++ [key]
  let table ← tableAt? context d.root
  if (table.get? key).isNone then d.put context key value
  else if d.implied.contains path then
    let d := { d with implied := d.implied.erase path }
    if d.arrays.contains path then d.put context key value else some d
  else none

/-- The draft in which a table may be defined once more. -/
def expect (d : Draft) (path : List Bytes) : Draft := { d with implied := d.implied.insert path }

/-- The key that a mark goes to. An empty key hands the mark on to its table. -/
def marked (context : List Bytes) (key : Bytes) : List Bytes :=
  if key.isEmpty && !context.isEmpty then context else context ++ [key]

/-- Marks a key as one of an array, or takes the mark away. -/
def mark (d : Draft) (context : List Bytes) (key : Bytes) (isArray : Bool) : Draft :=
  let path := marked context key
  { d with arrays := if isArray then d.arrays.insert path else d.arrays.erase path }

/-- Makes the tables of a path that are not there yet. -/
def reach (d : Draft) (path : List Bytes) : Option Draft := do
  let (root, made) ← makeWay [] path d.root
  return { d with root, implied := d.implied.insertMany made }

/-- Adds a table to the array of tables at a path. -/
def addItem (d : Draft) (path : List Bytes) : Option Draft := do
  let key ← path.getLast?
  let d ← d.reach path.dropLast
  let grow (entries : Entries) : Option Entries :=
    match entries.get? key with
    | none => some (entries.put key (.tables [[]]))
    | some (.tables items) => some (entries.put key (.tables (items ++ [[]])))
    | some _ => none
  return { d with root := ← updateAt grow path.dropLast d.root }

def addTable (d : Draft) (path : List Bytes) : Option Draft := do
  let key ← path.getLast?
  let d ← d.reach path.dropLast
  d.define path.dropLast key (.table [])

def openTables (d : Draft) (context : List Bytes) : List Bytes → Option Draft
  | [] => some d
  | key :: path => do
    let d ← (d.expect (context ++ [key])).addTable (context ++ [key])
    d.openTables (context ++ [key]) path

mutual

/-- The value of what is written for a key. While a table in braces is read, it stands in the
draft under the key, as a table or, inside an array, as one of its tables. -/
def evaluate (d : Draft) (context : List Bytes) (key : Bytes) (inArray : Bool) :
    Written → Option (Draft × Value)
  | .scalar v => some (d, v)
  | .array items => do
    let (d, values) ← evaluateAll (d.mark context key true) context key items
    return (d, .array values)
  | .table fields => do
    let here := context ++ [key]
    let d := d.expect here
    let d ← if inArray then d.addItem here else d.addTable here
    let (d, entries) ← assignAll d here [] fields
    return (d, .table entries)

def evaluateAll (d : Draft) (context : List Bytes) (key : Bytes) :
    List Written → Option (Draft × List Value)
  | [] => some (d, [])
  | item :: rest => do
    let (d, value) ← evaluate d context key true item
    let (d, values) ← evaluateAll d context key rest
    return (d, value :: values)

/-- Assigns the fields of a table in braces, and collects them. -/
def assignAll (d : Draft) (context : List Bytes) (entries : Entries) :
    List (List Bytes × Written) → Option (Draft × Entries)
  | [] => some (d, entries)
  | field :: rest => do
    let (d, value) ← assign d context field
    assignAll d context (← putAt? value field.1 entries) rest

/-- Assigns a value to a dotted key of the table at a path. -/
def assign (d : Draft) (context : List Bytes) : List Bytes × Written → Option (Draft × Value)
  | (path, written) => do
    let key ← path.getLast?
    let d ← d.openTables context path.dropLast
    let context := context ++ path.dropLast
    let (d, value) ← evaluate d context key false written
    let d ← d.define context key value
    return (d.mark context key written.isArray, value)

end

/-- Adds a statement under the heading that is in force, and gives the heading after it. -/
def add (d : Draft) (context : List Bytes) : Statement → Option (Draft × List Bytes)
  | .heading path => do
    let d ← d.addTable path
    return ({ d with arrays := d.arrays.erase path }, path)
  | .itemHeading path => do
    let d ← d.addItem path
    return ({ d with arrays := d.arrays.erase path }, path)
  | .assign path value => do
    let (d, _) ← d.assign context (path, value)
    return (d, context)

def addAll (d : Draft) (context : List Bytes) : List Statement → Option Draft
  | [] => some d
  | s :: rest => do
    let (d, context) ← d.add context s
    d.addAll context rest

end Draft

def parse (text : Bytes) : Option Entries := do
  let statements ← parseStatements text
  let draft ← ({} : Draft).addAll [] statements
  return draft.root

end MiniJvm.Toml
