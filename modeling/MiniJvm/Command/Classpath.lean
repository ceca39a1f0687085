import MiniJvm.Assembly.Generate
import MiniJvm.ClassFile.Reader
import MiniJvm.Files.Tree
import MiniJvm.Image.Codec
import MiniJvm.Machine.Load
import MiniJvm.Text.Quoted

/-!
# Class paths

The classes of a program are read from class files, assembly sources and images, one after
another. A directory stands for such files in it, and with `/...` behind it also for those further
down. The last image that names an entry method decides which is meant.
-/

namespace MiniJvm.Command

structure Classpath where
  defs : List ClassDef := []
  /-- The entry method of the last image that has one. -/
  entry : Bytes := []
  /-- The number of files that were read. -/
  files : Nat := 0
  deriving DecidableEq, Repr

inductive ClasspathError where
  | noAccess (path : Bytes) (cause : FileError)
  | notClasses (path : Bytes)
  | unreadable (cause : FileError)
  | assembly (path : Bytes) (causes : List Assembly.SourceError)
  | classFile (path : Bytes) (cause : ClassFile.ReadError)
  | conversion (path : Bytes) (cause : ClassDef.ConvertError)
  | imageUnreadable (path : Bytes) (cause : FileError)
  | image (cause : Image.ReadError)

def ClasspathError.message : ClasspathError → Bytes
  | .noAccess path cause => "cannot access " ++ Quoted.quote path ++ ": " ++ cause.message
  | .notClasses path => path ++ ": not a .class, .rasm or .rimg file"
  | .unreadable cause => cause.message
  | .assembly path causes => path ++ ":\n" ++ Assembly.errorText causes
  | .classFile path cause => path ++ ": " ++ cause.message
  | .conversion path cause => path ++ ": " ++ cause.message
  | .imageUnreadable path cause => "image: read " ++ path ++ ": " ++ cause.message
  | .image cause => cause.message

/-- A class path with what was logged while it was read. -/
structure Reading where
  classpath : Classpath := {}
  log : List Log.Line := []

/-- A step of reading a class path; what it logged stays when it fails. -/
abbrev ReadM := ExceptT ClasspathError (StateM Reading)

inductive FileKind where
  | classFile
  | source
  | image
  deriving DecidableEq, Repr

def fileKind? (path : Bytes) : Option FileKind :=
  if Path.endsWith path ".class" then some .classFile
  else if Path.endsWith path ".rasm" then some .source
  else if Path.endsWith path ".rimg" then some .image
  else none

def line (level : Log.Level) (message : Bytes) : Log.Line := ⟨level, "ristretto.cli", message⟩

namespace Classpath

def note (lines : List Log.Line) : ReadM Unit := modify fun r => { r with log := r.log ++ lines }

/-- Adds the definitions of one file, and what is logged about it. -/
def add (defs : List ClassDef) (message : Bytes) : ReadM Unit := do
  modify fun r => { r with
    classpath := { r.classpath with
      defs := r.classpath.defs ++ defs, files := r.classpath.files + 1 } }
  note [line .debug message]

def countText (defs : List ClassDef) : Bytes := " (" ++ Bytes.ofNat defs.length ++ " classes)"

def addSource (files : Files) (path : Bytes) : ReadM Unit := do
  match files.read path with
  | .error e => throw (.unreadable e)
  | .ok text =>
    match Assembly.assemble text with
    | .error es => throw (.assembly path es)
    | .ok defs => add defs ("assembled " ++ path ++ countText defs)

def addClassFile (files : Files) (path : Bytes) : ReadM Unit := do
  match files.read path with
  | .error e => throw (.unreadable e)
  | .ok bytes =>
    match ClassFile.parse bytes with
    | .error e => throw (.classFile path e)
    | .ok c =>
      note (ClassDef.conversionLog c)
      match ClassDef.ofClassFile c with
      | .error e => throw (.conversion path e)
      | .ok d =>
        add [d] ("read " ++ path ++ " (" ++ d.name ++ ", " ++ Bytes.ofNat d.methodList.length
          ++ " methods)")

def addImage (files : Files) (path : Bytes) : ReadM Unit := do
  match files.read path with
  | .error e => throw (.imageUnreadable path e)
  | .ok bytes =>
    match Image.unmarshal bytes with
    | .error e => throw (.image e)
    | .ok i =>
      if !i.entry.isEmpty then
        modify fun r => { r with classpath := { r.classpath with entry := i.entry } }
      add i.classList ("read image " ++ path ++ countText i.classList)

def addFile (files : Files) (path : Bytes) : ReadM Unit :=
  match fileKind? path with
  | some .classFile => addClassFile files path
  | some .source => addSource files path
  | some .image => addImage files path
  | none => throw (.notClasses path)

def sorted (entries : List (Bytes × Node)) : List (Bytes × Node) :=
  entries.mergeSort fun a b => Bytes.le a.1 b.1

def filesIn (dir : Bytes) (entries : List (Bytes × Node)) : List Bytes :=
  (sorted entries).filterMap fun (name, n) => if n.isDir then none else some (Path.join dir name)

mutual

def filesBelow (path : Bytes) : Node → List Bytes
  | .file _ => [path]
  | .dir entries =>
    ((filesOfEntries path entries).mergeSort fun a b => Bytes.le a.1 b.1).flatMap Prod.snd

def filesOfEntries (dir : Bytes) : List (Bytes × Node) → List (Bytes × List Bytes)
  | [] => []
  | (name, n) :: rest => (name, filesBelow (Path.join dir name) n) :: filesOfEntries dir rest

end

/-- A path without the mark for all that lies below it, and whether it had one. -/
def splitBelow (path : Bytes) : Bytes × Bool :=
  if Path.endsWith path "/..." then (path.take (path.length - 4), true) else (path, false)

def addPath (files : Files) (path : Bytes) : ReadM Unit := do
  let (path, below) := splitBelow path
  match files.stat path with
  | .error e => throw (.noAccess path e)
  | .ok (.file _) => addFile files path
  | .ok (.dir entries) =>
    let found := if below then filesBelow path (.dir entries) else filesIn path entries
    (found.filter fun p => (fileKind? p).isSome).forM (addFile files)

def addDirectory (files : Files) (dir : Bytes) : ReadM Unit := do
  match files.stat dir with
  | .error ⟨_, _, .missing⟩ =>
    note [line .debug ("class directory " ++ dir ++ " does not exist, skipped")]
  | _ => addPath files (dir ++ "/...")

end Classpath

/-! ## Entry methods

The method to run is the one asked for, else the one configured, else that of the last image, else
the main method of the one class that declares it. A name alone stands for the main method of that
class. -/

inductive EntryError where
  | missing
  | ambiguous (classes : List Bytes)
  deriving DecidableEq, Repr

def EntryError.message : EntryError → Bytes
  | .missing => "no entry point: no class declares main" ++ mainDescriptor ++ "; use -m"
  | .ambiguous classes =>
    "ambiguous entry point: " ++ Bytes.join ", " classes ++ " all declare main; use -m"

def declaresMain (d : ClassDef) : Bool :=
  d.methodList.any fun m => m.name == ("main" : Bytes) && m.descriptor == mainDescriptor

namespace Classpath

def mainClasses (cp : Classpath) : List Bytes :=
  (cp.defs.filter declaresMain).map ClassDef.name

/-- A name alone stands for the main method of that class. -/
def expandEntry (entry : Bytes) : Bytes :=
  if entry.contains 58 || entry.contains 46 then entry else defaultEntry entry

def resolveEntry (cp : Classpath) (explicit configured : Bytes) : Except EntryError Bytes :=
  match [explicit, configured, cp.entry].find? fun e => !e.isEmpty with
  | some e => .ok (expandEntry e)
  | none =>
    match cp.mainClasses with
    | [name] => .ok (defaultEntry name)
    | [] => .error .missing
    | names => .error (.ambiguous names)

end Classpath

end MiniJvm.Command
