import MiniJvm.Files.Tree
import MiniJvm.Machine.Run
import MiniJvm.Store.Basic
import MiniJvm.Store.Location

/-!
# Sessions

A session is a store that was opened at a path. What it does reaches the file when it is closed;
afterwards it refuses everything. A session that may only read refuses to save and to record.

A store remembers how runs ended. Runs are listed with the latest start first, and of equal starts
the one recorded last first.
-/

namespace MiniJvm

structure RunRecord where
  /-- The name of the run; recording gives one to a run without. -/
  id : Bytes := []
  /-- The digest of its image, or empty when the classes were not stored. -/
  image : Bytes := []
  entry : Bytes := []
  status : Bytes := []
  faultKind : Bytes := []
  fault : Bytes := []
  result : Int32 := 0
  hasResult : Bool := false
  instructions : UInt64 := 0
  invocations : UInt64 := 0
  maxDepth : Int64 := 0
  /-- The clock at its start, in nanoseconds. -/
  startedAt : Int64 := 0
  /-- How long it took, in nanoseconds. -/
  duration : Int64 := 0
  deriving DecidableEq, Repr

namespace RunRecord

def ofStatus (image entry : Bytes) (startedAt duration : Int64) (s : ExitStatus) : RunRecord :=
  { image, entry, startedAt, duration
    status := s.verdict.name
    faultKind := (s.fault.map fun f => (f.kind.name : Bytes)).getD []
    fault := (s.fault.map Fault.message).getD []
    result := s.result.getD 0
    hasResult := s.result.isSome
    instructions := s.stats.instructions.toUInt64
    invocations := s.stats.invocations.toUInt64
    maxDepth := Int64.ofNat s.stats.maxDepth }

/-- The columns of a run; counters keep their bits. -/
def toRow (r : RunRecord) : RunRow :=
  { id := r.id, image := r.image, entry := r.entry, status := r.status, faultKind := r.faultKind,
    fault := r.fault, maxDepth := r.maxDepth, startedAt := r.startedAt, duration := r.duration
    result := r.result.toInt64
    hasResult := if r.hasResult then 1 else 0
    instructions := r.instructions.toInt64
    invocations := r.invocations.toInt64 }

def ofRow (r : RunRow) : RunRecord :=
  { id := r.id, image := r.image, entry := r.entry, status := r.status, faultKind := r.faultKind,
    fault := r.fault, maxDepth := r.maxDepth, startedAt := r.startedAt, duration := r.duration
    result := r.result.toInt32
    hasResult := r.hasResult != 0
    instructions := r.instructions.toUInt64
    invocations := r.invocations.toUInt64 }

def completed (r : RunRecord) : Bool := r.status == (Verdict.completed.name : Bytes)

/-- The record under a name; one without gets the fresh name. -/
def named (r : RunRecord) (fresh : Bytes) : RunRecord :=
  if r.id.isEmpty then { r with id := fresh } else r

end RunRecord

namespace Store

/-- Records a run under its name or, if it has none, under the fresh one. -/
def recordRun (s : Store) (fresh : Bytes) (r : RunRecord) :
    Except StoreError (RunRecord × Store) :=
  let r := r.named fresh
  if s.runs.any (·.id == r.id) then .error (.duplicateRun r.id)
  else .ok (r, { s with runs := s.runs ++ [r.toRow] })

def findRun (s : Store) (id : Bytes) : Except StoreError RunRecord :=
  match s.runs.find? (·.id == id) with
  | none => .error (.runNotFound id)
  | some row => .ok (.ofRow row)

/-- The rows of runs, the latest start first and of equal starts the last recorded first. -/
def newestRuns (s : Store) : List RunRow :=
  s.runs.reverse.mergeSort fun a b => b.startedAt ≤ a.startedAt

/-- The recorded runs, newest first; a positive limit cuts the list. -/
def listRuns (s : Store) (limit : Int) : List RunRecord :=
  let rows := s.newestRuns
  (if 0 < limit then rows.take limit.toNat else rows).map .ofRow

end Store

/-! ## Sessions -/

structure Session where
  path : Bytes
  /-- The names that lead to the file; none for a store in memory. -/
  place : Option (List Bytes)
  store : Store
  readOnly : Bool := false
  isOpen : Bool := true
  deriving DecidableEq, Repr

namespace Session

inductive OpenError where
  /-- The directory of the file cannot be made. -/
  | noDirectory
  /-- No file can be at the path, or the options for the session are not understood. -/
  | notFile
  /-- The file holds something else, or is not a store yet and cannot become one. -/
  | notStore
  deriving DecidableEq, Repr

def OpenError.message : OpenError → Bytes
  | .noDirectory => "creating store directory"
  | .notFile => "setting busy timeout"
  | .notStore => "creating tables"

def line (level : Log.Level) (message : Bytes) : Log.Line := ⟨level, "ristretto.store", message⟩

def openedLine (path : Bytes) : Log.Line := line .debug ("opened " ++ path)

/-- The line of a saved image: the start of its digest and the number of its classes. -/
def savedLine (digest : Bytes) (i : Image) : Log.Line :=
  line .info ("saved image " ++ digest.take 12 ++ " (" ++ Bytes.ofNat i.classList.length
    ++ " classes)")

def recordedLine (r : RunRecord) : Log.Line :=
  line .debug ("recorded run " ++ r.id ++ ": " ++ r.entry ++ " " ++ r.status)

def inMemory (path : Bytes) : Session := { path, place := none, store := {} }

/-- The longest name of a store file in which tables can be made: the name of the journal beside it
has eight bytes more. -/
def maxNewName : Nat := maxName - 8

/-- What is in the file of a store, which may be new. -/
def contentAt (files : Files) (place : List Bytes) (old : Bool) : Except OpenError Bytes :=
  match files.root.at? place with
  | some (.file content) => .ok content
  | some (.dir _) => .error .notFile
  | none =>
    let inDirectory := (files.root.at? place.dropLast).any Node.isDir
    if inDirectory && !old then .ok [] else .error .notFile

/-- Whether tables cannot be made in a new file. -/
def staysBlank (place : List Bytes) (l : Store.Location) : Bool :=
  l.readOnly || maxNewName < (place.getLast?.getD []).length

/-- Opens the store in the file at a place. A file that cannot get its tables stays without, and so
does one that is opened with options that are not understood. -/
def openFile (files : Files) (path : Bytes) (place : List Bytes) (l : Store.Location) :
    Except OpenError Session × Files :=
  match contentAt files place l.old with
  | .error e => (.error e, files)
  | .ok content =>
    let write (content : Bytes) : Files :=
      { files with root := files.root.put place (.file content) }
    if !l.understood then (.error .notFile, write content)
    else match Store.decode content with
      | none => (.error .notStore, files)
      | some store =>
        if Store.isBlank content && staysBlank place l then (.error .notStore, write content)
        else
          (.ok { path, place := some place, store, readOnly := l.readOnly },
            if l.readOnly then files else write store.encode)

def openInMemory (path : Bytes) (l : Store.Location) : Except OpenError Session :=
  if !l.understood then .error .notFile
  else if l.readOnly then .error .notStore
  else .ok (inMemory path)

/-- Makes the directory of a store file; a path without a directory needs none. -/
def makeDirectory (files : Files) (path : Bytes) : Except OpenError Unit × Files :=
  let dir := Path.parent path
  if dir = ("." : Bytes) then (.ok (), files)
  else
    let (made, files) := files.makeDirs dir
    (made.mapError fun _ => .noDirectory, files)

def openAt (files : Files) (path : Bytes) : Except OpenError Session × Files :=
  match makeDirectory files path with
  | (.error e, files) => (.error e, files)
  | (.ok (), files) =>
    match Store.Location.ofPath? path with
    | none => (.error .notFile, files)
    | some l =>
      match l.file with
      | none => (openInMemory path l, files)
      | some name =>
        let noTemplate := l.template.any fun t => (files.find t).toOption.isNone
        match files.storePlace name with
        | none => (.error .notFile, files)
        | some place =>
          if noTemplate then (.error .notFile, files) else openFile files path place l

def close (s : Session) (files : Files) : Session × Files :=
  let closed := { s with isOpen := false }
  match s.place with
  | some place =>
    if s.isOpen && !s.readOnly then
      (closed, { files with root := files.root.put place (.file s.store.encode) })
    else (closed, files)
  | none => (closed, files)

def check (s : Session) (action : StoreAction) : Except StoreError Store :=
  if s.isOpen then .ok s.store else .error (.closed action)

def checkWrite (s : Session) (action : StoreAction) : Except StoreError Unit :=
  if s.readOnly then .error (.readOnly action) else .ok ()

/-- Saves an image at a time of the clock, and gives its digest. The first class is saved first. -/
def saveImage (s : Session) (now : Int64) (i : Image) : Except StoreError (Bytes × Session) := do
  let store ← s.check .savingImage
  s.checkWrite (i.classList.head?.elim .savingImage fun c => .savingClass c.name)
  let (digest, store) := store.saveImage now i
  return (digest, { s with store })

def recordRun (s : Session) (fresh : Bytes) (r : RunRecord) :
    Except StoreError (RunRecord × Session) := do
  let store ← s.check .recordingRun
  s.checkWrite .recordingRun
  let (r, store) ← store.recordRun fresh r
  return (r, { s with store })

def loadImage (s : Session) (digest : Bytes) : Except StoreError Image := do
  (← s.check .queryingImage).loadImage digest

def latestImage (s : Session) : Except StoreError (Bytes × Image) := do
  (← s.check .queryingImage).latestImage

def loadClass (s : Session) (name : Bytes) : Except StoreError ClassDef := do
  (← s.check .queryingClass).loadClass name

def classNames (s : Session) : Except StoreError (List Bytes) := do
  return (← s.check .listingClasses).classNames

def findRun (s : Session) (id : Bytes) : Except StoreError RunRecord := do
  (← s.check .queryingRun).findRun id

def listRuns (s : Session) (limit : Int) : Except StoreError (List RunRecord) := do
  return (← s.check .listingRuns).listRuns limit

end Session

end MiniJvm
