import MiniJvm.Command.Run
import Std.Time.DateTime.Timestamp

/-!
# The program

Fetches the files that a command line needs, runs it on them, and writes what came out. Nothing is
decided here.
-/

namespace MiniJvm.Program

def textOf (s : Bytes) : String := (String.fromUTF8? ⟨s.toArray⟩).getD ""

/-- Reads a file, or a directory with all below it. -/
partial def readTree (path : String) : IO Node := do
  let place := (← IO.currentDir) / path
  if ← place.isDir then
    let entries ← (← place.readDir).toList.mapM fun e => do
      return (Bytes.ofString e.fileName, ← readTree e.path.toString)
    return .dir entries
  else return .file (← IO.FS.readBinFile place).toList

def lookAt (path : String) (below : Bool) : IO (Option Node) := do
  let place := (← IO.currentDir) / path
  if !(← place.pathExists) then return none
  if !below && (← place.isDir) then return some (.dir [])
  return some (← readTree path)

def fetch (files : Files) (need : Command.Need) : IO Files := do
  let names := Path.cleanParts (Path.resolve files.workPath need.path)
  let mut files := files
  for k in [1:names.length + 1] do
    let place := names.take k
    let path := textOf (47 :: Bytes.join "/" place)
    match ← lookAt path (need.below && k == names.length) with
    | none => return files
    | some n =>
      files := files.graft place n
      if !n.isDir then return files
  return files

def fetchAll (files : Files) (words : List Bytes) : IO Files := do
  let mut files := files
  let mut known : List Command.Need := []
  for _ in [0:Command.Need.maxLevels] do
    let new := (Command.Need.ofWords files words).filter fun n => !known.contains n
    if new.isEmpty then return files
    for n in new do
      files ← fetch files n
    known := known ++ new
  return files

def writeChanges (before after : Files) : IO Unit := do
  for (path, content) in before.changes after do
    let place := (← IO.currentDir) / textOf path
    IO.FS.createDirAll ((← IO.currentDir) / textOf (Path.parent path))
    IO.FS.writeBinFile place ⟨content.toArray⟩

def freshName : IO Bytes := do
  let random := (← IO.getRandomBytes 16).toList
  let digits := Bytes.hex random
  let version := digits.set 12 52
  let variant := version.set 16 (Bytes.hexDigit (8 + ((random[8]?).getD 0).toNat / 16 % 4))
  let part (start count : Nat) : Bytes := (variant.drop start).take count
  return Bytes.join "-" [part 0 8, part 8 4, part 12 4, part 16 4, part 20 12]

/-- Writes log lines to the log file, or to the error output when there is none. -/
def writeLog (logging : Option Command.Logging) (lines : List Log.Line) : IO Unit := do
  let text := lines.flatMap fun l => l.text ++ ("\n" : Bytes)
  match logging with
  | some ⟨_, file⟩ =>
    if file.isEmpty then (← IO.getStderr).write ⟨text.toArray⟩
    else
      IO.FS.createDirAll ((← IO.currentDir) / textOf (Path.parent file))
      (← IO.FS.Handle.mk ((← IO.currentDir) / textOf file) .append).write ⟨text.toArray⟩
  | none => pure ()

/-- The number of steps that a run may take: more than any run makes. -/
def fuel : Nat := pow2 62

def run (args : List String) : IO UInt32 := do
  let words := args.map Bytes.ofString
  let workDir := Path.cleanParts (Bytes.ofString (← IO.currentDir).toString)
  let files ← fetchAll ⟨.dir [], workDir⟩ words
  let now := Int64.ofInt (← Std.Time.Timestamp.now).toNanosecondsSinceUnixEpoch.val
  let outcome := Command.run ⟨⟨now, ← freshName⟩, fuel⟩ files words
  writeChanges files outcome.files
  writeLog outcome.logging outcome.log
  (← IO.getStdout).write ⟨outcome.out.toArray⟩
  (← IO.getStderr).write ⟨outcome.err.toArray⟩
  return outcome.code.toUInt32

end MiniJvm.Program

def main (args : List String) : IO UInt32 := MiniJvm.Program.run args
