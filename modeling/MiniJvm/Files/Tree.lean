import MiniJvm.Text.Bytes

/-!
# File trees

A tree of directories and files with a working directory. A path is followed name by name through
the tree, so a double dot behind something that is no directory leads nowhere.

Paths are names between slashes. Cleaning drops empty names and dots and takes back the name
before a double dot; it looks at the text only, not at the files.
-/

namespace MiniJvm.Path

def isAbsolute (p : Bytes) : Bool := p.head? == some 47

/-- The names of a path, empty ones included. -/
def parts (p : Bytes) : List Bytes := Bytes.splitOn 47 p

/-- Whether a name is the double dot. -/
def isUp (name : Bytes) : Bool := name == [46, 46]

/-- Whether a name stands for the directory itself. -/
def isHere (name : Bytes) : Bool := name.isEmpty || name == [46]

/-- Adds a name to the cleaned names before it, which are given backwards. -/
def push (absolute : Bool) (before : List Bytes) (name : Bytes) : List Bytes :=
  if isHere name then before
  else if isUp name then
    match before with
    | [] => if absolute then [] else [name]
    | last :: rest => if isUp last then name :: before else rest
  else name :: before

def cleanParts (p : Bytes) : List Bytes :=
  ((parts p).foldl (push (isAbsolute p)) []).reverse

/-- The shortest path with the same names; never empty. -/
def clean (p : Bytes) : Bytes :=
  let names := Bytes.join "/" (cleanParts p)
  if isAbsolute p then 47 :: names else if names.isEmpty then "." else names

/-- The path of `b` in `a`, cleaned; an empty part is left out. -/
def join (a b : Bytes) : Bytes :=
  if a.isEmpty && b.isEmpty then []
  else if a.isEmpty then clean b
  else if b.isEmpty then clean a
  else clean (a ++ "/" ++ b)

def parent (p : Bytes) : Bytes := clean (p.reverse.dropWhile (· != 47)).reverse

/-- The path as seen from a directory. -/
def resolve (dir p : Bytes) : Bytes := if isAbsolute p then p else join dir p

def endsWith (s suffix : Bytes) : Bool := suffix.reverse.isPrefixOf s.reverse

end MiniJvm.Path

/-! ## File trees -/

namespace MiniJvm

inductive Node where
  | file (content : Bytes)
  | dir (entries : List (Bytes × Node))
  deriving Repr

/-- Why an operation on files fails. -/
inductive Trouble where
  | missing
  | notDirectory
  | isDirectory
  /-- A name or the whole path is too long. -/
  | tooLong
  /-- The path holds a zero byte. -/
  | invalid
  deriving DecidableEq, Repr

def Trouble.text : Trouble → Bytes
  | .missing => "no such file or directory"
  | .notDirectory => "not a directory"
  | .isDirectory => "is a directory"
  | .tooLong => "file name too long"
  | .invalid => "invalid argument"

def maxName : Nat := 255

def maxPath : Nat := 4095

def nameTrouble? (name : Bytes) : Option Trouble :=
  if name.contains 0 then some .invalid else if maxName < name.length then some .tooLong else none

def pathTrouble? (path : Bytes) : Option Trouble :=
  if path.contains 0 then some .invalid
  else if path.isEmpty then some .missing
  else if maxPath < path.length then some .tooLong
  else none

/-- A failed operation: what was done to which path, and why it failed. -/
structure FileError where
  action : Bytes
  path : Bytes
  trouble : Trouble
  deriving DecidableEq, Repr

def FileError.message (e : FileError) : Bytes :=
  e.action ++ " " ++ e.path ++ ": " ++ e.trouble.text

namespace Node

def child? (entries : List (Bytes × Node)) (name : Bytes) : Option Node :=
  (entries.find? fun e => e.1 == name).map Prod.snd

/-- The node behind names that stand for themselves. -/
def at? : List Bytes → Node → Option Node
  | [], n => some n
  | _ :: _, .file _ => none
  | name :: rest, .dir entries => (child? entries name).bind (at? rest)

def putEntry (entries : List (Bytes × Node)) (name : Bytes) (n : Node) : List (Bytes × Node) :=
  (name, n) :: entries.filter fun e => e.1 != name

/-- The tree with a node put behind names; the directories before it must be there. -/
def put : List Bytes → Node → Node → Node
  | [], _, new => new
  | _ :: _, .file content, _ => .file content
  | name :: rest, .dir entries, new =>
    match child? entries name with
    | some inner => .dir (putEntry entries name (put rest inner new))
    | none => if rest.isEmpty then .dir (putEntry entries name new) else .dir entries

def isDir : Node → Bool
  | .dir _ => true
  | .file _ => false

mutual

def files (before : List Bytes) : Node → List (List Bytes × Bytes)
  | .file content => [(before, content)]
  | .dir entries => filesOf before entries

def filesOf (before : List Bytes) : List (Bytes × Node) → List (List Bytes × Bytes)
  | [] => []
  | (name, n) :: rest => files (before ++ [name]) n ++ filesOf before rest

end

end Node

/-- A tree with a working directory, which is given by the names that lead to it. -/
structure Files where
  root : Node
  workDir : List Bytes
  deriving Repr

namespace Files

def workPath (f : Files) : Bytes := 47 :: Bytes.join "/" f.workDir

/-- The cleaned path from the root; a relative one starts at the working directory. -/
def absolute (f : Files) (path : Bytes) : Bytes := Path.clean (Path.resolve f.workPath path)

/-- Follows names from a place in the tree; the place is given backwards. -/
def follow (root : Node) : List Bytes → List Bytes → Except Trouble (List Bytes)
  | place, [] => .ok place
  | place, name :: rest =>
    match root.at? place.reverse with
    | some (.dir entries) =>
      if Path.isHere name then follow root place rest
      else if Path.isUp name then follow root place.tail rest
      else if (Node.child? entries name).isSome then follow root (name :: place) rest
      else .error ((nameTrouble? name).getD .missing)
    | some (.file _) => .error .notDirectory
    | none => .error .missing

/-- The place that a path leads to, by names that stand for themselves. -/
def locate (f : Files) (path : Bytes) : Except Trouble (List Bytes) :=
  match pathTrouble? path with
  | some t => .error t
  | none =>
    let start := if Path.isAbsolute path then [] else f.workDir.reverse
    (follow f.root start (Path.parts path)).map List.reverse

/-- The node that a path leads to. -/
def find (f : Files) (path : Bytes) : Except Trouble Node := do
  match f.root.at? (← f.locate path) with
  | some n => .ok n
  | none => .error .missing

/-- The node that a path leads to, for a look at it. -/
def stat (f : Files) (path : Bytes) : Except FileError Node :=
  (f.find path).mapError fun t => ⟨"stat", path, t⟩

def read (f : Files) (path : Bytes) : Except FileError Bytes :=
  match f.find path with
  | .error t => .error ⟨"open", path, t⟩
  | .ok (.dir _) => .error ⟨"read", path, .isDirectory⟩
  | .ok (.file content) => .ok content

def names (entries : List (Bytes × Node)) : List Bytes := Bytes.sort (entries.map Prod.fst)

/-- A path as the directory before its last name, and that name. -/
def splitLast (path : Bytes) : Bytes × Bytes :=
  let name := (path.reverse.takeWhile (· != 47)).reverse
  (path.take (path.length - name.length), name)

def placeFor (f : Files) (path : Bytes) : Except Trouble (List Bytes) := do
  if let some t := pathTrouble? path then throw t
  let bare := Bytes.trimRight (· == 47) path
  let (dir, name) := splitLast bare
  let place ← f.locate (if !dir.isEmpty then dir else if bare.isEmpty then "/" else ".")
  match f.root.at? place with
  | some (.dir entries) =>
    if bare != path || Path.isHere name || Path.isUp name then throw .isDirectory
    match Node.child? entries name, nameTrouble? name with
    | some (.dir _), _ => throw .isDirectory
    | _, some t => throw t
    | _, none => return place ++ [name]
  | _ => throw .notDirectory

def write (f : Files) (path content : Bytes) : Except FileError Files :=
  match f.placeFor path with
  | .error t => .error ⟨"open", path, t⟩
  | .ok place => .ok { f with root := f.root.put place (.file content) }

/-- Makes the directories behind cleaned names one after another; the place is given backwards.
Those made before one is refused stay. -/
def makeFrom (f : Files) (place : List Bytes) : List Bytes → Except FileError Unit × Files
  | [] => (.ok (), f)
  | name :: rest =>
    let next := if Path.isUp name then place.tail else name :: place
    let refuse (t : Trouble) : Except FileError Unit × Files :=
      (.error ⟨"mkdir", 47 :: Bytes.join "/" next.reverse, t⟩, f)
    match f.root.at? next.reverse, nameTrouble? name with
    | some (.dir _), _ => makeFrom f next rest
    | some (.file _), _ => refuse .notDirectory
    | none, some t => refuse t
    | none, none => makeFrom { f with root := f.root.put next.reverse (.dir []) } next rest

def makeDirs (f : Files) (path : Bytes) : Except FileError Unit × Files :=
  f.makeFrom (if Path.isAbsolute path then [] else f.workDir.reverse) (Path.cleanParts path)

def maxStorePath : Nat := 511

/-- The place that names lead to when a double dot takes back the name before it, whether that is
there or not; the place is given backwards. Nothing is below a file. -/
def storePlaceFrom (f : Files) (place : List Bytes) : List Bytes → Option (List Bytes)
  | [] => some place.reverse
  | name :: rest =>
    if Path.isHere name then storePlaceFrom f place rest
    else if Path.isUp name then storePlaceFrom f place.tail rest
    else
      let next := name :: place
      let belowFile := (f.root.at? place.reverse).any fun n => !n.isDir
      if belowFile || (nameTrouble? name).isSome then none
      else if maxStorePath < (next.map fun n => n.length + 1).sum then none
      else storePlaceFrom f next rest

def storePlace (f : Files) (path : Bytes) : Option (List Bytes) :=
  f.storePlaceFrom (if Path.isAbsolute path then [] else f.workDir.reverse) (Path.parts path)

def contents (f : Files) : List Bytes := (f.root.files []).map Prod.snd

/-- The files that are new or changed, with their contents, in the order of their paths. -/
def changes (before after : Files) : List (Bytes × Bytes) :=
  let old := before.root.files []
  let new := (after.root.files []).filter fun f => !old.contains f
  (new.map fun f => (47 :: Bytes.join "/" f.1, f.2)).mergeSort fun a b => Bytes.le a.1 b.1

end Files

end MiniJvm
