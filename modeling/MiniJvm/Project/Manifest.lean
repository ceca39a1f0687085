import MiniJvm.Files.Tree
import MiniJvm.Log
import MiniJvm.Table
import MiniJvm.Toml.Document

/-!
# Project manifests

A project says in a TOML file of a fixed name where its classes are, what to run and which other
projects it needs. Keys that mean nothing here are passed over; a key of the wrong kind makes the
file unreadable.
-/

namespace MiniJvm

/-- Another project whose classes are needed. -/
structure Dependency where
  git : Bytes := []
  tag : Bytes := []
  path : Bytes := []
  deriving DecidableEq, Repr

structure Manifest where
  name : Bytes := []
  version : Bytes := []
  /-- Directories with class files. -/
  classDirs : List Bytes := []
  /-- Image files. -/
  images : List Bytes := []
  /-- The method to run, or empty. -/
  entry : Bytes := []
  args : List Int32 := []
  trace : Bool := false
  /-- The store of images and runs. -/
  store : Bytes := []
  logFile : Bytes := []
  verbosity : Option Int := none
  /-- The address to serve on. -/
  address : Bytes := []
  dependencies : Table Dependency := .empty
  /-- The directory of the manifest. -/
  dir : Bytes := []
  deriving DecidableEq, Repr

namespace Manifest

def fileName : Bytes := "ristretto.toml"

def defaultClassDir : Bytes := "classes"

def defaultStore : Bytes := ".ristretto/classes.db"

def defaultAddress : Bytes := "localhost:4568"

def defaultVerbosity : Int := 1

/-- Reads the fields of a table into a record, one after another. -/
def fill {σ : Type} (field : σ → Bytes → Toml.Value → Option σ) (s : σ) (v : Toml.Value) :
    Option σ :=
  v.entries?.bind fun entries => entries.foldlM (fun s e => field s e.1 e.2) s

def projectField (m : Manifest) (key : Bytes) (v : Toml.Value) : Option Manifest :=
  if Toml.names key "name" then v.text?.map fun s => { m with name := s }
  else if Toml.names key "version" then v.text?.map fun s => { m with version := s }
  else some m

def classpathField (m : Manifest) (key : Bytes) (v : Toml.Value) : Option Manifest :=
  if Toml.names key "dirs" then
    (v.list? Toml.Value.text?).map fun dirs => { m with classDirs := dirs }
  else if Toml.names key "images" then
    (v.list? Toml.Value.text?).map fun images => { m with images }
  else some m

def runField (m : Manifest) (key : Bytes) (v : Toml.Value) : Option Manifest :=
  if Toml.names key "entry" then v.text?.map fun s => { m with entry := s }
  else if Toml.names key "args" then
    (v.list? Toml.Value.int32?).map fun args => { m with args }
  else if Toml.names key "trace" then v.bool?.map fun b => { m with trace := b }
  else some m

def storeField (m : Manifest) (key : Bytes) (v : Toml.Value) : Option Manifest :=
  if Toml.names key "path" then v.text?.map fun s => { m with store := s } else some m

def logField (m : Manifest) (key : Bytes) (v : Toml.Value) : Option Manifest :=
  if Toml.names key "verbosity" then v.int?.map fun n => { m with verbosity := some n }
  else if Toml.names key "file" then v.text?.map fun s => { m with logFile := s }
  else some m

def serverField (m : Manifest) (key : Bytes) (v : Toml.Value) : Option Manifest :=
  if Toml.names key "addr" then v.text?.map fun s => { m with address := s } else some m

def dependencyField (d : Dependency) (key : Bytes) (v : Toml.Value) : Option Dependency :=
  if Toml.names key "git" then v.text?.map fun s => { d with git := s }
  else if Toml.names key "tag" then v.text?.map fun s => { d with tag := s }
  else if Toml.names key "path" then v.text?.map fun s => { d with path := s }
  else some d

def addDependency (m : Manifest) (name : Bytes) (v : Toml.Value) : Option Manifest :=
  (fill dependencyField {} v).map fun d =>
    { m with dependencies := m.dependencies.insert name d }

/-- A key at the top. Dependencies that are no table count as none. -/
def field (m : Manifest) (key : Bytes) (v : Toml.Value) : Option Manifest :=
  if Toml.names key "project" then fill projectField m v
  else if Toml.names key "classpath" then fill classpathField m v
  else if Toml.names key "run" then fill runField m v
  else if Toml.names key "store" then fill storeField m v
  else if Toml.names key "log" then fill logField m v
  else if Toml.names key "server" then fill serverField m v
  else if Toml.names key "dependencies" then
    if v.entries?.isNone then some m else fill addDependency m v
  else some m

/-- The settings with defaults for what was not given. -/
def withDefaults (m : Manifest) : Manifest :=
  { m with
    classDirs :=
      if m.classDirs.isEmpty && m.images.isEmpty then [defaultClassDir] else m.classDirs
    store := if m.store.isEmpty then defaultStore else m.store
    address := if m.address.isEmpty then defaultAddress else m.address }

def parse (text : Bytes) : Option Manifest :=
  (Toml.parse text).bind fun entries => (fill field {} (.table entries)).map withDefaults

inductive Error where
  | unreadable (path : Bytes) (cause : FileError)
  | malformed (path : Bytes)
  deriving DecidableEq, Repr

/-- The message about a TOML file that is malformed or has a key of the wrong kind. -/
def malformedText (path : Bytes) : Bytes := "parse error in " ++ path

def Error.message : Error → Bytes
  | .unreadable path cause => "cannot read " ++ path ++ ": " ++ cause.message
  | .malformed path => malformedText path

def pathIn (dir : Bytes) : Bytes := Path.join dir fileName

def load (files : Files) (dir : Bytes) : Except Error Manifest :=
  match files.read (pathIn dir) with
  | .error e => .error (.unreadable (pathIn dir) e)
  | .ok text =>
    match parse text with
    | none => .error (.malformed (pathIn dir))
    | some m => .ok { m with dir := files.absolute dir }

def loadedLine (dir : Bytes) : Log.Line := ⟨.debug, "ristretto.manifest", "loaded " ++ pathIn dir⟩

/-- The nearest directory with a manifest, among those that names lead to, which are given
backwards. -/
def nearest (files : Files) : List Bytes → Option Bytes
  | [] => if (files.stat (pathIn "/")).isOk then some "/" else none
  | name :: before =>
    let dir : Bytes := 47 :: Bytes.join "/" (name :: before).reverse
    if (files.stat (pathIn dir)).isOk then some dir else nearest files before

/-- The manifest of a directory or of the nearest one above it that has one. -/
def find (files : Files) (dir : Bytes) : Except Error (Option Manifest) :=
  match nearest files (Path.cleanParts (Path.resolve files.workPath dir)).reverse with
  | none => .ok none
  | some dir => (load files dir).map some

def resolve (m : Manifest) (path : Bytes) : Bytes := Path.resolve m.dir path

def classDirPaths (m : Manifest) : List Bytes := m.classDirs.map m.resolve

def imagePaths (m : Manifest) : List Bytes := m.images.map m.resolve

def storePath (m : Manifest) : Bytes := m.resolve m.store

def logPath (m : Manifest) : Bytes := if m.logFile.isEmpty then [] else m.resolve m.logFile

/-- Where the sources of fetched dependencies lie. -/
def depsDir (m : Manifest) : Bytes := Path.join m.dir ".ristretto/deps"

def lockPath (m : Manifest) : Bytes := Path.join m.dir ".ristretto/lock.toml"

def effectiveVerbosity (m : Manifest) : Int := m.verbosity.getD defaultVerbosity

end Manifest

/-! ## Lock files

A lock file records where each dependency was taken from. Its text is TOML that the library writes
itself: one table for each dependency, with the fields that are not empty. -/

/-- Where a dependency was taken from. -/
structure LockedDep where
  name : Bytes := []
  git : Bytes := []
  tag : Bytes := []
  commit : Bytes := []
  path : Bytes := []
  deriving DecidableEq, Repr

abbrev Lock := List LockedDep

namespace Lock

def depField (d : LockedDep) (key : Bytes) (v : Toml.Value) : Option LockedDep :=
  if Toml.names key "name" then v.text?.map fun s => { d with name := s }
  else if Toml.names key "git" then v.text?.map fun s => { d with git := s }
  else if Toml.names key "tag" then v.text?.map fun s => { d with tag := s }
  else if Toml.names key "commit" then v.text?.map fun s => { d with commit := s }
  else if Toml.names key "path" then v.text?.map fun s => { d with path := s }
  else some d

def field (lock : Lock) (key : Bytes) (v : Toml.Value) : Option Lock :=
  if Toml.names key "deps" then v.list? (Manifest.fill depField {}) else some lock

def parse (text : Bytes) : Option Lock :=
  (Toml.parse text).bind fun entries => Manifest.fill field [] (.table entries)

/-- A byte as it stands in a string. -/
def escape (b : UInt8) : Bytes :=
  match b with
  | 34 => "\\\""
  | 92 => "\\\\"
  | 8 => "\\b"
  | 9 => "\\t"
  | 10 => "\\n"
  | 12 => "\\f"
  | 13 => "\\r"
  | b => if b < 32 || b == 127 then "\\u" ++ Bytes.hexOf 4 b.toNat else [b]

def fieldLine (key value : Bytes) : Bytes :=
  "  " ++ key ++ " = \"" ++ value.flatMap escape ++ "\"\n"

def optionalLine (key value : Bytes) : Bytes := if value.isEmpty then [] else fieldLine key value

def depText (d : LockedDep) : Bytes :=
  "[[deps]]\n" ++ fieldLine "name" d.name ++ optionalLine "git" d.git ++ optionalLine "tag" d.tag
    ++ optionalLine "commit" d.commit ++ optionalLine "path" d.path

def text (lock : Lock) : Bytes :=
  "# Generated by ristretto. Do not edit.\n\n" ++ Bytes.join "\n" (lock.map depText)

/-- Why a lock file cannot be read. -/
inductive Error where
  | unreadable (cause : FileError)
  | malformed (path : Bytes)
  deriving DecidableEq, Repr

def Error.message : Error → Bytes
  | .unreadable cause => cause.message
  | .malformed path => Manifest.malformedText path

def load (files : Files) (path : Bytes) : Except Error (Option Lock) :=
  match files.read path with
  | .error e => if e.trouble = .missing then .ok none else .error (.unreadable e)
  | .ok text =>
    match parse text with
    | some lock => .ok (some lock)
    | none => .error (.malformed path)

def save (files : Files) (path : Bytes) (lock : Lock) : Except FileError Files :=
  files.write path lock.text

def find? (lock : Lock) (name : Bytes) : Option LockedDep := List.find? (·.name == name) lock

end Lock

end MiniJvm
