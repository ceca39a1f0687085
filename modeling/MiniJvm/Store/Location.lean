import MiniJvm.Files.Tree
import MiniJvm.Number.Literal

/-!
# Store locations

The path that a store is opened at names a file. Options may follow a question mark that is not
the first byte; they are no part of the name. A path that starts with `file:` is an address, whose
options may also ask for memory in place of a file, for a file that is there already, or for one
that is only read. Names that cannot be understood are refused. So are options for the session, but
only when the file is open.

A setting of a session is a name, which may follow the name of a database and a dot, with or
without a value. The value stands behind an equals sign or in parentheses. Names are plain or in
quotes; a few plain words cannot be names. Semicolons may follow a setting.
-/

namespace MiniJvm.Store

/-- A setting with its value, if it has one. -/
structure Setting where
  name : Bytes
  value : Option Bytes
  deriving DecidableEq, Repr

namespace Setting

def isDigit (b : UInt8) : Bool := 48 ≤ b && b ≤ 57

def isBlank (b : UInt8) : Bool := b == 32 || (9 ≤ b && b ≤ 13 && b != 11)

def startsName (b : UInt8) : Bool :=
  let l := Bytes.lower b
  (97 ≤ l && l ≤ 122) || b == 95 || 128 ≤ b

def inName (b : UInt8) : Bool := startsName b || isDigit b || b == 36

def valueWords : List Bytes := ["default", "delete", "on"]

def reservedWords : List Bytes :=
  (["add", "all", "alter", "and", "as", "autoincrement", "between", "case", "check", "collate",
    "commit", "constraint", "create", "deferrable", "distinct", "drop", "else", "escape", "except",
    "exists", "foreign", "from", "group", "having", "in", "index", "insert", "intersect", "into",
    "is", "isnull", "join", "limit", "not", "nothing", "notnull", "null", "or", "order", "primary",
    "references", "returning", "select", "set", "table", "then", "to", "transaction", "union",
    "unique", "update", "using", "values", "when", "where"] : List String).map Bytes.ofString

def databases : List Bytes := ["main", "temp"]

/-- What stands before the closing quote, and what follows it; two of them stand for one. -/
def quoted? (close : UInt8) : Bytes → Option (Bytes × Bytes)
  | [] => none
  | [b] => if b == close then some ([], []) else none
  | b :: c :: rest =>
    if b != close then (quoted? close (c :: rest)).map fun (s, after) => (b :: s, after)
    else if c == close then (quoted? close rest).map fun (s, after) => (b :: s, after)
    else some ([], c :: rest)

def name? (refused : List Bytes) (s : Bytes) : Option (Bytes × Bytes) :=
  match s with
  | [] => none
  | b :: rest =>
    if b == 39 || b == 34 || b == 96 then quoted? b rest
    else if b == 91 then Bytes.cut? 93 rest
    else if startsName b then
      let word := s.takeWhile inName
      if refused.contains (word.map Bytes.lower) then none else some (word, s.dropWhile inName)
    else none

/-- An unsigned number: decimal digits, which may hold a point, or hexadecimal digits behind their
mark. -/
def number? (s : Bytes) : Option (Bytes × Bytes) :=
  let word := s.takeWhile fun b => inName b || b == 46
  let isHex (b : UInt8) : Bool := (Literal.digit? b).any (· < 16)
  let good := match word with
    | 48 :: x :: digits =>
      if Bytes.lower x == 120 then !digits.isEmpty && digits.all isHex
      else word.all (fun b => isDigit b || b == 46) && word.count 46 ≤ 1
    | _ => word.any isDigit && word.all (fun b => isDigit b || b == 46) && word.count 46 ≤ 1
  if good then some (word, s.drop word.length) else none

def skip (s : Bytes) : Bytes := s.dropWhile isBlank

def value? (s : Bytes) : Option (Bytes × Bytes) :=
  match s with
  | 43 :: rest => number? (skip rest)
  | 45 :: rest => (number? (skip rest)).map fun (n, after) => (45 :: n, after)
  | _ => number? s <|> name? reservedWords s

def fullName? (s : Bytes) : Option (Bytes × Bytes) := do
  let (first, rest) ← name? (valueWords ++ reservedWords) s
  match skip rest with
  | 46 :: rest =>
    if databases.contains (first.map Bytes.lower) then
      name? (valueWords ++ reservedWords) (skip rest)
    else none
  | rest => return (first, rest)

def read? (s : Bytes) : Option Setting := do
  let (name, rest) ← fullName? (skip s)
  let (value, rest) ← match skip rest with
    | 61 :: rest => (value? (skip rest)).map fun (v, rest) => (some v, rest)
    | 40 :: rest =>
      match value? (skip rest) with
      | some (v, rest) =>
        match skip rest with
        | 41 :: rest => some (some v, rest)
        | _ => none
      | none => none
    | rest => some (none, rest)
  if rest.all fun b => isBlank b || b == 59 then return ⟨name, value⟩ else none

/-- The number at the start of a text that starts with a digit; zero if 31 bits do not hold it. -/
def leadingNumber (s : Bytes) : Nat :=
  let isHex (b : UInt8) : Bool := (Literal.digit? b).any (· < 16)
  let (base, digits) : Nat × Bytes := match s with
    | 48 :: x :: d :: rest =>
      if Bytes.lower x == 120 && isHex d then (16, (d :: rest).takeWhile isHex)
      else (10, s.takeWhile isDigit)
    | _ => (10, s.takeWhile isDigit)
  ((Literal.digits base 2147483647 false 0 digits).toOption).getD 0

/-- Whether a value means yes: it is a word for that, or the last eight bits of its number are not
all zero. -/
def isYes (s : Bytes) : Bool :=
  if s.head?.any isDigit then leadingNumber s % 256 != 0
  else (["on", "yes", "true"] : List Bytes).contains (s.map Bytes.lower)

def onlyReads (before : Bool) (s : Setting) : Bool :=
  if s.name.map Bytes.lower = "query_only" then (s.value.map isYes).getD before else before

end Setting

/-! ## Store locations -/

/-- How a file may be opened. -/
inductive Access where
  | readOnly
  /-- For writing as well, if it is there already. -/
  | existing
  /-- For writing as well, and made if it is not there. -/
  | create
  deriving DecidableEq, Repr

/-- How much a way of opening a file allows. -/
def Access.rank : Access → Nat
  | .readOnly => 0
  | .existing => 1
  | .create => 2

/-- Where the rows of a store are kept, and how. -/
structure Location where
  /-- The name of the file; a store without one is kept in memory. -/
  file : Option Bytes
  /-- Whether the file has to be there already. -/
  old : Bool := false
  readOnly : Bool := false
  /-- A file that a new one takes its permissions from; it has to be there. -/
  template : Option Bytes := none
  /-- Whether the options for the session are understood. -/
  understood : Bool := true
  deriving DecidableEq, Repr

namespace Location

def memoryName : Bytes := ":memory:"

/-- The byte that two hexadecimal digits write. -/
def escaped? (a b : UInt8) : Option UInt8 := do
  let high ← (Literal.digit? a).filter (· < 16)
  let low ← (Literal.digit? b).filter (· < 16)
  return (high * 16 + low).toUInt8

/-- A part of an option list with its escapes replaced; a plus stands for a blank. -/
def unescape? : Bytes → Option Bytes
  | [] => some []
  | 37 :: a :: b :: rest => do
    let c ← escaped? a b
    return c :: (← unescape? rest)
  | 37 :: _ => none
  | 43 :: rest => (unescape? rest).map (32 :: ·)
  | c :: rest => (unescape? rest).map (c :: ·)

def splitOption (s : Bytes) : Bytes × Bytes := (Bytes.cut? 61 s).getD (s, [])

def options? (s : Bytes) : Option (List (Bytes × Bytes)) :=
  ((Bytes.splitOn 38 s).filter fun part => !part.isEmpty).mapM fun part => do
    if part.contains 59 then none
    else
      let (name, value) := splitOption part
      return (← unescape? name, ← unescape? value)

/-- The values that options give to a name. -/
def values (options : List (Bytes × Bytes)) (name : Bytes) : List Bytes :=
  (options.filter fun o => o.1 == name).map Prod.snd

def beforeZero (s : Bytes) : Bytes := s.takeWhile (· != 0)

def defaultSystem : Bytes := "unix"

def memorySystem : Bytes := "memdb"

def systems : List Bytes :=
  [defaultSystem, "unix-none", "unix-dotfile", "unix-excl", memorySystem]

/-- The file system that options ask for; once one is named, all have to name it. -/
def system? (options : List (Bytes × Bytes)) : Option Bytes :=
  let join (old new : Bytes) : Option Bytes := if old.isEmpty || old == new then some new else none
  ((values options "vfs").foldlM join []).map fun system =>
    if system.isEmpty then defaultSystem else beforeZero system

def switches : List Bytes :=
  ["1", "t", "T", "TRUE", "true", "True", "0", "f", "F", "FALSE", "false", "False"]

def sessionOptions : List (Bytes × List Bytes) :=
  [("_time_format", ["sqlite"]),
    ("_time_integer_format", ["unix", "unix_milli", "unix_micro", "unix_nano"]),
    ("_inttotime", switches), ("_texttotime", switches)]

def lockings : List Bytes := ["deferred", "immediate", "exclusive"]

/-- Whether the options for a session are understood, the settings aside. -/
def understands (options : List (Bytes × Bytes)) : Bool :=
  let first (name : Bytes) : Bytes := (values options name).headD []
  let locking := (first "_txlock").map Bytes.lower
  sessionOptions.all (fun o => (first o.1).isEmpty || o.2.contains (first o.1))
    && (locking.isEmpty || lockings.contains locking)

def settings? (options : List (Bytes × Bytes)) : Option (List Setting) :=
  let texts := (values options "_pragma").map fun s => Bytes.trim Setting.isBlank s
  (Bytes.sort (texts.map fun s => s.map Bytes.lower)).mapM fun s => Setting.read? (beforeZero s)

/-- The text with the escapes that it has replaced; an escaped zero byte ends it. -/
def decode : Bytes → Bytes
  | [] => []
  | 37 :: a :: b :: rest =>
    match escaped? a b with
    | some 0 => []
    | some c => c :: decode rest
    | none => 37 :: decode (a :: b :: rest)
  | c :: rest => c :: decode rest

/-- What stands behind the host of an address; only this machine may be named. -/
def afterHost? : Bytes → Option Bytes
  | 47 :: 47 :: rest =>
    let host := rest.takeWhile (· != 47)
    if host.isEmpty || host = "localhost" then some (rest.dropWhile (· != 47)) else none
  | s => some s

/-- The file that an address asks for: how it may be opened, or that memory takes its place. -/
inductive Mode where
  | memory
  | file (access : Access)
  deriving DecidableEq, Repr

def modes : List (Bytes × Mode) :=
  [("ro", .file .readOnly), ("rw", .file .existing), ("rwc", .file .create), ("memory", .memory)]

/-- The mode after one more that is asked for. No file gets more access than it had before; memory
in its place can be had at any time, and be given up for any access. -/
def changeMode? (old : Mode) (word : Bytes) : Option Mode := do
  let (_, new) ← modes.find? fun m => m.1 == word
  match old, new with
  | .file a, .file b => if b.rank ≤ a.rank then some new else none
  | _, _ => some new

/-- The location of a name in a file system. Nothing ever changes in a frozen file. -/
def ofName (system name : Bytes) (mode : Mode) (frozen : Bool) (template : Option Bytes) :
    Location :=
  let readOnly := mode == .file .readOnly
  if mode == .memory || name.isEmpty || name == memoryName then { file := none, readOnly }
  else if system == memorySystem then { file := none, readOnly := readOnly || frozen }
  else
    { file := some name, old := mode != .file .create, readOnly := readOnly || frozen, template }

/-- The location of an address, given from behind `file:` on. -/
def ofAddress? (system s : Bytes) : Option Location := do
  let s := (← afterHost? s).takeWhile (· != 35)
  let (path, options) := (Bytes.cut? 63 s).getD (s, [])
  let options := ((Bytes.splitOn 38 options).map splitOption).map fun o => (decode o.1, decode o.2)
  let mode ← (values options "mode").foldlM changeMode? (.file .create)
  let system := ((values options "vfs").getLast?).getD system
  let frozen := (values options "immutable").head?.any Setting.isYes
  let caches : List Bytes := ["shared", "private"]
  if systems.contains system && (values options "cache").all caches.contains then
    return ofName system (decode path) mode frozen (values options "modeof").head?
  else none

def scheme : Bytes := "file:"

/-- A location with the options for the session taken into account. -/
def withOptions (l : Location) (options : List (Bytes × Bytes)) : Location :=
  match settings? options with
  | none => { l with understood := false }
  | some settings =>
    { l with
      understood := understands options
      readOnly := l.readOnly || settings.foldl Setting.onlyReads false }

/-- The location that a path stands for. A zero byte ends it. -/
def ofPath? (path : Bytes) : Option Location := do
  let (front, back) :=
    match Bytes.cut? 63 path with
    | some (front, back) => if front.isEmpty then (path, []) else (front, back)
    | none => (path, [])
  let options ← options? back
  let system ← system? options
  let name := beforeZero (if scheme.isPrefixOf path then path else front)
  let location ←
    if scheme.isPrefixOf name then ofAddress? system (name.drop scheme.length)
    else if systems.contains system then
      some (ofName system name (.file .create) false none)
    else none
  return location.withOptions options

end Location

end MiniJvm.Store
