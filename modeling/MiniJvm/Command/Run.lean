import MiniJvm.Command.Address
import MiniJvm.Command.Options
import MiniJvm.Command.Classpath
import MiniJvm.Project.Resolve
import MiniJvm.Service.Execution
import MiniJvm.Text.Columns

/-!
# Running a command line

A command line serves, lists recorded runs, prints the loaded classes, writes them to an image or
runs a method, here or on a server.

A command works on files, writes to two outputs and logs. What it did before it failed stays done.
-/

namespace MiniJvm.Command

inductive Failure where
  | classpath (cause : ClasspathError)
  | noPaths
  | noClasses
  | dependencies (cause : ResolveError)
  | load (cause : LoadError)
  | imageUnwritable (path : Bytes) (cause : FileError)
  | entry (cause : EntryError)
  | argument (cause : ArgumentError)
  | openStore (cause : Session.OpenError)
  | store (cause : StoreError)
  | remote (cause : Refusal)
  | listen (address : Bytes) (cause : AddressError)
  /-- The run faulted, which was reported already. -/
  | faulted
  /-- The machine itself stopped. -/
  | crashed (cause : Crash)
  /-- The run did not end within the steps that it was given. -/
  | unfinished

def Failure.message : Failure → Bytes
  | .classpath cause => cause.message
  | .noPaths => "no class paths given and no " ++ Manifest.fileName ++ " found"
  | .noClasses => "no classes loaded"
  | .dependencies cause => cause.message
  | .load cause => cause.message
  | .imageUnwritable path cause => "image: write " ++ path ++ ": " ++ cause.message
  | .entry cause => cause.message
  | .argument cause => cause.message
  | .openStore cause => cause.message
  | .store cause => cause.message
  | .remote cause => "remote execute: " ++ cause.code.name ++ ": " ++ cause.message
  | .listen address cause => cause.message address
  | .faulted => "run faulted"
  | .crashed cause => cause.message
  | .unfinished => "run did not end"

/-- What the world lends to a command: the clock, a name that no run has, and the number of steps
that a run may take. -/
structure Grant where
  moment : Moment
  fuel : Nat

structure Desk where
  files : Files
  log : List Log.Line := []
  out : Bytes := []
  err : Bytes := []

abbrev CommandM := ExceptT Failure (StateM Desk)

def note (lines : List Log.Line) : CommandM Unit := modify fun d => { d with log := d.log ++ lines }

def inform (message : Bytes) : CommandM Unit := note [line .info message]

def print (text : Bytes) : CommandM Unit := modify fun d => { d with out := d.out ++ text }

def printError (text : Bytes) : CommandM Unit := modify fun d => { d with err := d.err ++ text }

def ensure {ε α : Type} (failure : ε → Failure) : Except ε α → CommandM α
  | .ok a => pure a
  | .error e => throw (failure e)

/-! ## Running a command line -/

def readClasses (reading : ReadM Unit) : CommandM Classpath := do
  let (outcome, r) := (ExceptT.run reading).run {}
  note r.log
  ensure .classpath outcome
  return r.classpath

def resolveDependencies (m : Manifest) : CommandM (List ResolvedDep) := do
  let r := m.resolveDependencies (← get).files
  modify fun d => { d with files := r.files }
  note r.log
  ensure .dependencies r.outcome

/-- The classes that the command line names or, when it names none, those of the project. -/
def loadClasspath (o : Options) (m : Option Manifest) : CommandM Classpath := do
  if !o.paths.isEmpty || !o.images.isEmpty then
    let files := (← get).files
    readClasses do
      o.paths.forM (Classpath.addPath files)
      o.images.forM (Classpath.addImage files)
  else
    match m with
    | none => throw .noPaths
    | some m =>
      let deps ← resolveDependencies m
      let files := (← get).files
      readClasses ((m.classSources deps).forM fun source =>
        if source.image then Classpath.addImage files source.path
        else Classpath.addDirectory files source.path)

def entryArguments (o : Options) (m : Option Manifest) : CommandM (List Int32) :=
  if o.args.isEmpty then pure ((m.map Manifest.args).getD [])
  else ensure .argument (parseArguments o.args)

def storePath (o : Options) (m : Option Manifest) : Bytes :=
  if !o.store.isEmpty then o.store else (m.map Manifest.storePath).getD Manifest.defaultStore

/-- Does something with an opened store, which is closed afterwards in any case. -/
def withStore {α : Type} (o : Options) (m : Option Manifest)
    (action : Session → CommandM (Session × Except StoreError α)) : CommandM α := do
  let path := storePath o m
  let (opened, files) := Session.openAt (← get).files path
  modify fun d => { d with files }
  let session ← ensure .openStore opened
  note [Session.openedLine path]
  let (session, outcome) ← action session
  modify fun d => { d with files := (session.close d.files).2 }
  ensure .store outcome

def loadRegistry (defs : List ClassDef) : CommandM Registry := do
  let loaded := Registry.empty.loadAll defs
  note (loaded.events.map LoadEvent.line)
  let _ ← ensure .load loaded.outcome
  return loaded.registry

def recordRun (g : Grant) (o : Options) (m : Option Manifest) (i : Image) (r : RunRecord) :
    CommandM RunRecord := do
  let recorded ← withStore o m fun s => do
    match s.saveImage g.moment.now i with
    | .error e => return (s, .error e)
    | .ok (digest, s) =>
      note [Session.savedLine digest i]
      match s.recordRun g.moment.fresh { r with image := digest } with
      | .error e => return (s, .error e)
      | .ok (r, s) =>
        note [Session.recordedLine r]
        return (s, .ok r)
  inform ("recorded run " ++ recorded.id)
  return recorded

def runLocal (g : Grant) (o : Options) (m : Option Manifest) (cp : Classpath) (entry : Bytes)
    (args : List Int32) (trace : Bool) : CommandM RunRecord := do
  let registry ← loadRegistry cp.defs
  let report := registry.execute g.fuel entry args trace
  note report.log
  match report.outcome with
  | .crashed c => throw (.crashed c)
  | .unfinished => throw .unfinished
  | .ended status =>
    let r := RunRecord.ofStatus [] entry g.moment.now 0 status
    if o.record then recordRun g o m (Image.ofClasses entry (some cp.defs)) r else return r

/-- The server that runs on other machines reach: it has one worker and a store of its own. -/
def remoteService : Service := Service.create 1 (some (Session.inMemory []))

def runRemote (g : Grant) (cp : Classpath) (entry : Bytes) (args : List Int32) (trace : Bool) :
    CommandM RunRecord := do
  let data := (Image.ofClasses entry (some cp.defs)).marshal
  let (outcome, serving) := remoteService.serve
    (Service.execute g.fuel g.moment { source := { data }, entry, args, trace })
  note serving.log
  let r ← ensure .remote outcome
  inform ("remote run " ++ r.id)
  return r

def report (r : RunRecord) : CommandM Unit := do
  inform (r.entry ++ " " ++ r.status ++ ": " ++ Bytes.ofNat r.instructions.toNat
    ++ " instructions, " ++ Bytes.ofNat r.invocations.toNat ++ " invocations, depth "
    ++ Bytes.ofInt r.maxDepth.toInt)
  if !r.completed then
    printError (r.faultKind ++ ": " ++ r.fault ++ "\n")
    throw .faulted
  if r.hasResult then print (Bytes.ofInt r.result.toInt ++ "\n")

def disassemble (cp : Classpath) : CommandM Unit := do
  print (← loadRegistry cp.defs).disassemble

def writeImage (path entry : Bytes) (cp : Classpath) : CommandM Unit := do
  let bytes := (Image.ofClasses entry (some cp.defs)).marshal
  let files ← ensure (.imageUnwritable path) ((← get).files.write path bytes)
  modify fun d => { d with files }
  inform ("wrote " ++ path ++ Classpath.countText cp.defs)

def useClasses (g : Grant) (o : Options) (m : Option Manifest) : CommandM Unit := do
  let cp ← loadClasspath o m
  if cp.defs.isEmpty then throw .noClasses
  inform ("loaded " ++ Bytes.ofNat cp.defs.length ++ " classes from " ++ Bytes.ofNat cp.files
    ++ " files")
  if o.disassemble then
    disassemble cp
    return
  let entry := cp.resolveEntry o.entry ((m.map Manifest.entry).getD [])
  if !o.saveImage.isEmpty then
    writeImage o.saveImage (entry.toOption.getD []) cp
    if o.entry.isEmpty then return
  let entry ← ensure .entry entry
  let args ← entryArguments o m
  let trace := o.trace || (m.map Manifest.trace).getD false
  if o.remote.isEmpty then report (← runLocal g o m cp entry args trace)
  else report (← runRemote g cp entry args trace)

def runLine (r : RunRecord) : Bytes :=
  let result : Bytes :=
    if !r.faultKind.isEmpty then r.faultKind
    else if r.hasResult then Bytes.ofInt r.result.toInt
    else "-"
  Bytes.join "\t" [r.id, Timestamp.text r.startedAt, r.entry, r.status, result,
    Bytes.ofNat r.instructions.toNat] ++ "\n"

def listRuns (o : Options) (m : Option Manifest) : CommandM Unit := do
  let runs ← withStore o m fun s => return (s, s.listRuns o.runs)
  print (Columns.layOut ("ID\tSTARTED\tENTRY\tSTATUS\tRESULT\tINSTRUCTIONS\n"
    ++ runs.flatMap runLine))

def serve (o : Options) (m : Option Manifest) : CommandM Unit := do
  let address := if !o.address.isEmpty then o.address
    else (m.map Manifest.address).getD Manifest.defaultAddress
  withStore o m fun s => return (s, .ok ())
  throw (.listen address (listenError address))

def dispatch (g : Grant) (o : Options) (m : Option Manifest) : CommandM Unit :=
  if o.serve then serve o m
  else if 0 < o.runs then listRuns o m
  else useClasses g o m

structure Logging where
  verbosity : Int
  file : Bytes
  deriving DecidableEq, Repr

def loggingOf (o : Options) (m : Option Manifest) : Logging :=
  let configured := (m.map Manifest.effectiveVerbosity).getD Manifest.defaultVerbosity
  { verbosity := if 0 ≤ o.verbosity then o.verbosity else configured
    file := (m.map Manifest.logPath).getD [] }

structure Outcome where
  code : Nat
  out : Bytes := []
  err : Bytes := []
  /-- How the log was kept, once that was known. -/
  logging : Option Logging := none
  /-- The lines that the verbosity lets through. -/
  log : List Log.Line := []
  files : Files
  /-- What stopped the machine itself. -/
  crash : Option Crash := none

def errorText (message : Bytes) : Bytes := "Error: " ++ message ++ "\n"

/-- What is printed about a failure; a faulted run was reported already. -/
def Failure.report : Failure → Bytes
  | .faulted => []
  | .crashed c => "panic: " ++ c.message ++ "\n"
  | f => errorText f.message

def Failure.code : Failure → Nat
  | .crashed _ => 2
  | _ => 1

def Failure.crash? : Failure → Option Crash
  | .crashed c => some c
  | _ => none

def runOptions (g : Grant) (files : Files) (o : Options) (m : Option Manifest) : Outcome :=
  let (outcome, d) := (ExceptT.run (dispatch g o m)).run { files }
  let logging := loggingOf o m
  let done : Outcome :=
    { code := 0, out := d.out, err := d.err, logging, log := Log.visible logging.verbosity d.log
      files := d.files }
  match outcome with
  | .ok () => done
  | .error f => { done with code := f.code, err := d.err ++ f.report, crash := f.crash? }

def run (g : Grant) (files : Files) (words : List Bytes) : Outcome :=
  match parseOptions words with
  | .error .help => { code := 0, err := usage, files }
  | .error (.refused e) => { code := 2, err := e.message ++ "\n" ++ usage, files }
  | .ok o =>
    match Manifest.find files files.workPath with
    | .error e => { code := 1, err := errorText e.message, files }
    | .ok m => runOptions g files o m

end MiniJvm.Command

/-! ## What a command line needs

The places in the file system that a command line may look at, as far as the files that are known
already tell. With the files from these places more may become known, so they are asked for again
until nothing new turns up. -/

namespace MiniJvm

namespace Files

/-- The files with a node put at a place that is given by names; the directories before it are made.
A directory that is there already keeps its entries when the new one has none. -/
def graft (f : Files) (place : List Bytes) (n : Node) : Files :=
  let (_, f) := f.makeFrom [] place.dropLast
  match f.root.at? place, n with
  | some (.dir _), .dir [] => f
  | _, _ => { f with root := f.root.put place n }

end Files

namespace Command

structure Need where
  path : Bytes
  /-- Whether all below it is needed too. -/
  below : Bool
  deriving DecidableEq, Repr

namespace Need

def manifests (workDir : List Bytes) : List Need :=
  (List.range (workDir.length + 1)).map fun n =>
    ⟨Manifest.pathIn (47 :: Bytes.join "/" (workDir.take n)), false⟩

def dependencyDirs (m : Manifest) : List Bytes :=
  (m.dependencies.values.filter fun d => !d.path.isEmpty).map fun d => m.resolve d.path

def ofManifest (m : Manifest) : List Need :=
  (m.classDirPaths ++ [m.depsDir] ++ dependencyDirs m).map (⟨·, true⟩)
    ++ (m.lockPath :: m.imagePaths).map (⟨·, false⟩)

/-- Manifests with those of their dependencies, over a number of levels. -/
def withDependencies (files : Files) : Nat → List Manifest → List Manifest
  | 0, ms => ms
  | levels + 1, ms =>
    let dirs := (ms.flatMap dependencyDirs).eraseDups
    (ms ++ withDependencies files levels
      (dirs.filterMap fun dir => (Manifest.load files dir).toOption)).eraseDups

def maxLevels : Nat := 32

/-- The paths that matter for a store: the directory that is made for it, its file, and the one that
it takes its permissions from. -/
def ofStore (path : Bytes) : List Bytes :=
  let location := Store.Location.ofPath? path
  Path.parent path
    :: ((location.bind fun l => l.file).toList ++ (location.bind fun l => l.template).toList)

def ofOptions (o : Options) (m : Option Manifest) : List Need :=
  (o.paths.map fun p => (⟨(Classpath.splitBelow p).1, true⟩ : Need))
    ++ (o.images ++ [o.saveImage] ++ ofStore (storePath o m)).map (⟨·, false⟩)

/-- The places that a command line needs, as far as the known files tell. -/
def ofWords (files : Files) (words : List Bytes) : List Need :=
  match parseOptions words with
  | .error _ => []
  | .ok o =>
    let m := (Manifest.find files files.workPath).toOption.bind id
    manifests files.workDir ++ ofOptions o m
      ++ (withDependencies files maxLevels m.toList).flatMap ofManifest

end Need

end Command

end MiniJvm
