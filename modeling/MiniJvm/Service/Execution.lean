import MiniJvm.Machine.Registry
import MiniJvm.Service.Workers
import MiniJvm.Store.Session

/-!
# The execution service

The service runs, lists and stores images on request. An image comes with the request or, by its
digest, from the store. Runs happen on a pool of workers. A run that faults is answered like any
other; a request is refused when it cannot be served at all.
-/

namespace MiniJvm

inductive RefusalCode where
  | canceled
  | invalidArgument
  | deadlineExceeded
  | notFound
  | failedPrecondition
  | internal
  | unavailable
  deriving DecidableEq, Repr

def RefusalCode.name : RefusalCode → String
  | .canceled => "canceled"
  | .invalidArgument => "invalid_argument"
  | .deadlineExceeded => "deadline_exceeded"
  | .notFound => "not_found"
  | .failedPrecondition => "failed_precondition"
  | .internal => "internal"
  | .unavailable => "unavailable"

inductive Refusal where
  /-- The request has more arguments than an array may have elements. -/
  | oversized
  /-- A text of the request is not valid UTF-8. -/
  | malformed
  | noImage
  | noImageOrDigest
  | noEntry
  | noStore
  | image (cause : Image.ReadError)
  | load (cause : LoadError)
  | store (cause : StoreError)
  | lookup (cause : LookupError)
  /-- The worker broke down with a text. -/
  | crashed (text : Bytes)
  | contextOver (why : ContextEnd)
  | stopped
  /-- The run did not end within the steps that it was given. -/
  | unfinished
  deriving DecidableEq, Repr

namespace Refusal

def code : Refusal → RefusalCode
  | .oversized | .malformed | .noImage | .noImageOrDigest | .noEntry | .image _ | .load _ =>
    .invalidArgument
  | .noStore => .failedPrecondition
  | .store (.imageNotFound _) | .lookup _ => .notFound
  | .store _ | .crashed _ => .internal
  | .contextOver .canceled => .canceled
  | .contextOver .deadlineExceeded | .unfinished => .deadlineExceeded
  | .stopped => .unavailable

def message : Refusal → Bytes
  | .oversized =>
    "unmarshal message: cbor: exceeded max number of elements " ++ Bytes.ofNat Cbor.maxElements
      ++ " for CBOR array"
  | .malformed => "unmarshal message: cbor: invalid UTF-8 string"
  | .noImage => "image is required"
  | .noImageOrDigest => "image or digest is required"
  | .noEntry => "entry is required"
  | .noStore => "server has no store"
  | .image cause => cause.message
  | .load cause => cause.message
  | .store cause => cause.message
  | .lookup cause => cause.message
  | .crashed text => "panic: " ++ text
  | .contextOver why => why.message
  | .stopped => "worker pool stopped"
  | .unfinished => "run did not end"

end Refusal

/-- A service: its workers and, if runs are kept, its store. -/
structure Service where
  workers : WorkerPool Refusal RunRecord
  session : Option Session

/-- What the world lends to a request: the clock and a name that no run has. -/
structure Moment where
  now : Int64
  fresh : Bytes
  deriving DecidableEq, Repr

/-- The image of a request: its bytes or else its digest, empty where not given. -/
structure ImageSource where
  data : Bytes := []
  digest : Bytes := []
  deriving DecidableEq, Repr

structure ExecuteRequest where
  source : ImageSource
  /-- The method to run, or empty for that of the image. -/
  entry : Bytes
  args : List Int32
  trace : Bool
  deriving DecidableEq, Repr

/-- The digest of a stored image and the number of its classes. -/
structure SavedImage where
  digest : Bytes
  classes : Nat
  deriving DecidableEq, Repr

/-- The names of the classes of an image and a listing of them or of one. -/
structure Disassembly where
  classes : List Bytes
  listing : Bytes
  deriving DecidableEq, Repr

structure Serving where
  service : Service
  log : List Log.Line := []

/-- A step of serving a request; what it did and logged stays when it is refused. -/
abbrev ServeM := ExceptT Refusal (StateM Serving)

namespace Service

/-- The number of runs that are listed when the request gives no limit. -/
def defaultLimit : Int := 20

def create (workers : Int) (session : Option Session) : Service :=
  ⟨WorkerPool.create workers, session⟩

def note (lines : List Log.Line) : ServeM Unit := modify fun s => { s with log := s.log ++ lines }

def needStore : ServeM Session := do
  match (← get).service.session with
  | some s => return s
  | none => throw .noStore

def setSession (session : Session) : ServeM Unit :=
  modify fun s => { s with service := { s.service with session := some session } }

/-- Refuses a request with a text that is not valid UTF-8. -/
def checkTexts (texts : List Bytes) : ServeM Unit :=
  if texts.all Utf8.valid then pure () else throw .malformed

def resolveImage (source : ImageSource) : ServeM (Image × Bytes) := do
  if !source.data.isEmpty then
    match Image.unmarshal source.data with
    | .error e => throw (.image e)
    | .ok i => return (i, i.digest)
  else if !source.digest.isEmpty then
    match (← needStore).loadImage source.digest with
    | .error e => throw (.store e)
    | .ok i => return (i, source.digest)
  else throw .noImageOrDigest

def loadImage (i : Image) : ServeM Registry := do
  let loaded := Registry.empty.loadAll i.classList
  note (loaded.events.map LoadEvent.line)
  match loaded.outcome with
  | .error e => throw (.load e)
  | .ok _ => return loaded.registry

/-- The job of a run: it loads the image and runs the entry method for at most `fuel` steps. -/
def runJob (fuel : Nat) (i : Image) (digest entry : Bytes) (request : ExecuteRequest)
    (started : Int64) : Job Refusal RunRecord := fun () =>
  let loaded := Registry.empty.loadAll i.classList
  let loadLog := loaded.events.map LoadEvent.line
  match loaded.outcome with
  | .error e => (.error (.load e), loadLog)
  | .ok _ =>
    let report := loaded.registry.execute fuel entry request.args request.trace
    let log := loadLog ++ report.log
    match report.outcome with
    | .ended status => (.value (.ofStatus digest entry started 0 status), log)
    | .crashed crash => (.crashed crash.message, log)
    | .unfinished => (.error .unfinished, log)

def outcome : Option (Reply Refusal RunRecord) → Except Refusal RunRecord
  | some (.ended (.value r)) => .ok r
  | some (.ended (.error e)) => .error e
  | some (.ended (.crashed text)) => .error (.crashed text)
  | some (.contextOver why) => .error (.contextOver why)
  | some .stopped | none => .error .stopped

def perform (job : Job Refusal RunRecord) : ServeM RunRecord := do
  let s := (← get).service
  let (reply, workers) := { s.workers with log := [] }.perform job
  modify fun serving => { serving with service := { s with workers } }
  note workers.log
  match outcome reply with
  | .ok r => return r
  | .error e => throw e

/-- Records a run in the store, if there is one; a run gets a name in any case. -/
def recordRun (m : Moment) (r : RunRecord) : ServeM RunRecord := do
  match (← get).service.session with
  | none => return r.named m.fresh
  | some s =>
    match s.recordRun m.fresh r with
    | .error e => throw (.store e)
    | .ok (r, s) =>
      setSession s
      note [Session.recordedLine r]
      return r

def executedLine (r : RunRecord) : Log.Line :=
  ⟨.info, "ristretto.server", "execute " ++ r.entry ++ ": " ++ r.status ++ " ("
    ++ Bytes.ofNat r.instructions.toNat ++ " instructions)"⟩

def execute (fuel : Nat) (m : Moment) (request : ExecuteRequest) : ServeM RunRecord := do
  if Cbor.maxElements < request.args.length then throw .oversized
  checkTexts [request.source.digest, request.entry]
  let (i, digest) ← resolveImage request.source
  let entry := if request.entry.isEmpty then i.entry else request.entry
  if entry.isEmpty then throw .noEntry
  let r ← recordRun m (← perform (runJob fuel i digest entry request m.now))
  note [executedLine r]
  return r

/-- Lists the classes of an image, or the one that is named. -/
def disassemble (source : ImageSource) (name : Bytes) : ServeM Disassembly := do
  checkTexts [source.digest, name]
  let r ← loadImage (← resolveImage source).1
  let classes := r.classList.map Class.name
  if name.isEmpty then return ⟨classes, r.disassemble⟩
  match r.lookupClass name with
  | .error e => throw (.lookup e)
  | .ok c => return ⟨classes, c.disassemble⟩

/-- Stores an image that can be loaded. -/
def saveImage (m : Moment) (data : Bytes) : ServeM SavedImage := do
  let s ← needStore
  if data.isEmpty then throw .noImage
  match Image.unmarshal data with
  | .error e => throw (.image e)
  | .ok i =>
    let _ ← loadImage i
    match s.saveImage m.now i with
    | .error e => throw (.store e)
    | .ok (digest, s) =>
      setSession s
      note [Session.savedLine digest i]
      return ⟨digest, i.classList.length⟩

def listRuns (limit : Int) : ServeM (List RunRecord) := do
  match (← needStore).listRuns (if limit ≤ 0 then defaultLimit else limit) with
  | .error e => throw (.store e)
  | .ok runs => return runs

/-- Serves one request: its answer, the service after it and what was logged. -/
def serve {α : Type} (s : Service) (request : ServeM α) : Except Refusal α × Serving :=
  (ExceptT.run request).run { service := s }

end Service

end MiniJvm
