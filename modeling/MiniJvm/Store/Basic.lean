import MiniJvm.Image.Codec
import MiniJvm.Log

/-!
# Stores

A store keeps images and their classes under the digests of their encodings, and the history of
runs. Content that is there already is not saved again and keeps its place, and with it the time
of its first save. The newest row is the one with the latest time, and of those the one saved
last.
-/

namespace MiniJvm

structure ImageRow where
  digest : Bytes
  body : Bytes
  /-- The clock at its first save, in nanoseconds. -/
  savedAt : Int64
  deriving DecidableEq, Repr

structure ClassRow where
  digest : Bytes
  name : Bytes
  body : Bytes
  /-- The clock at its first save, in nanoseconds. -/
  savedAt : Int64
  deriving DecidableEq, Repr

/-- A recorded run in signed columns of 64 bits. -/
structure RunRow where
  id : Bytes
  image : Bytes
  entry : Bytes
  status : Bytes
  faultKind : Bytes
  fault : Bytes
  result : Int64
  hasResult : Int64
  instructions : Int64
  invocations : Int64
  maxDepth : Int64
  startedAt : Int64
  duration : Int64
  deriving DecidableEq, Repr

/-- The rows of a store, each list in the order of insertion. -/
structure Store where
  images : List ImageRow := []
  classes : List ClassRow := []
  runs : List RunRow := []
  deriving DecidableEq, Repr

inductive StoreAction where
  | savingImage
  | savingClass (name : Bytes)
  | queryingImage
  | queryingClass
  | listingClasses
  | recordingRun
  | queryingRun
  | listingRuns
  deriving DecidableEq, Repr

/-- Why a store refuses. -/
inductive StoreError where
  /-- No image is there, or none under the digest that was asked for. -/
  | imageNotFound (digest : Option Bytes)
  | classNotFound (name : Bytes)
  | runNotFound (id : Bytes)
  /-- A saved image cannot be read back. -/
  | image (cause : Image.ReadError)
  /-- A saved class cannot be read back. -/
  | malformedClass
  | duplicateRun (id : Bytes)
  /-- The store was closed before. -/
  | closed (action : StoreAction)
  /-- The store may only be read. -/
  | readOnly (action : StoreAction)
  deriving DecidableEq, Repr

def StoreAction.text : StoreAction → Bytes
  | .savingImage => "saving image"
  | .savingClass name => "saving class " ++ name
  | .queryingImage => "querying image"
  | .queryingClass => "querying class"
  | .listingClasses => "listing classes"
  | .recordingRun => "recording run"
  | .queryingRun => "querying run"
  | .listingRuns => "listing runs"

/-- The text of an error; one that stops the recording of a run does not say why. -/
def StoreError.message : StoreError → Bytes
  | .imageNotFound none => "image not found"
  | .imageNotFound (some digest) => "image not found: " ++ digest
  | .classNotFound name => "class not found: " ++ name
  | .runNotFound id => "run not found: " ++ id
  | .image cause => cause.message
  | .malformedClass => Image.malformedClass
  | .duplicateRun _ | .closed .recordingRun | .readOnly .recordingRun =>
    StoreAction.recordingRun.text
  | .closed action => action.text ++ ": sql: database is closed"
  | .readOnly action => action.text ++ ": attempt to write a readonly database (8)"

namespace Store

/-- The newest row: the latest by time, and the last inserted of those. -/
def newest {α : Type} (time : α → Int64) (rows : List α) : Option α :=
  rows.foldl
    (fun best row =>
      match best with
      | none => some row
      | some b => if time b ≤ time row then some row else some b)
    none

def saveClass (s : Store) (now : Int64) (c : ClassDef) : Store :=
  let digest := Image.classDigest c
  if s.classes.any (·.digest == digest) then s
  else { s with classes := s.classes ++ [⟨digest, c.name, Image.marshalClass c, now⟩] }

/-- Saves the image itself unless its content is there already. -/
def saveBody (s : Store) (now : Int64) (i : Image) : Store :=
  if s.images.any (·.digest == i.digest) then s
  else { s with images := s.images ++ [⟨i.digest, i.marshal, now⟩] }

/-- Saves an image and each of its classes under their digests, and gives that of the image. -/
def saveImage (s : Store) (now : Int64) (i : Image) : Bytes × Store :=
  (i.digest, (i.classList.foldl (fun s c => s.saveClass now c) s).saveBody now i)

def readImage (row : ImageRow) : Except StoreError Image :=
  (Image.unmarshal row.body).mapError .image

def loadImage (s : Store) (digest : Bytes) : Except StoreError Image :=
  match s.images.find? (·.digest == digest) with
  | none => .error (.imageNotFound (some digest))
  | some row => readImage row

def latestImage (s : Store) : Except StoreError (Bytes × Image) :=
  match newest ImageRow.savedAt s.images with
  | none => .error (.imageNotFound none)
  | some row => (readImage row).map fun i => (row.digest, i)

def loadClass (s : Store) (name : Bytes) : Except StoreError ClassDef :=
  match newest ClassRow.savedAt (s.classes.filter (·.name == name)) with
  | none => .error (.classNotFound name)
  | some row =>
    match Image.unmarshalClass row.body with
    | none => .error .malformedClass
    | some c => .ok c

def classNames (s : Store) : List Bytes := Bytes.sort (s.classes.map ClassRow.name).eraseDups

end Store

end MiniJvm

/-! ## Store files

A store file starts with a mark and the digest of what follows, so a file that holds something else
or was damaged is told apart. What follows is one CBOR array for every row. The first element says
which list the row belongs to, and rows of one list stand in their order. -/

namespace MiniJvm.Store

open Cbor

def mark : Bytes := "class store 1\n"

def itemOfImageRow (r : ImageRow) : Item :=
  .array [.unsigned 0, .bytes r.digest, .bytes r.body, Image.itemOfInt r.savedAt.toInt]

def itemOfClassRow (r : ClassRow) : Item :=
  .array [.unsigned 1, .bytes r.digest, .bytes r.name, .bytes r.body,
    Image.itemOfInt r.savedAt.toInt]

def itemOfRunRow (r : RunRow) : Item :=
  .array ([.unsigned 2, .bytes r.id, .bytes r.image, .bytes r.entry, .bytes r.status,
      .bytes r.faultKind, .bytes r.fault]
    ++ [r.result, r.hasResult, r.instructions, r.invocations, r.maxDepth, r.startedAt,
      r.duration].map fun n => Image.itemOfInt n.toInt)

def items (s : Store) : List Item :=
  s.images.map itemOfImageRow ++ s.classes.map itemOfClassRow ++ s.runs.map itemOfRunRow

def encode (s : Store) : Bytes :=
  let rows := encodeAll s.items
  mark ++ Digest.hex rows ++ rows

def addItem (s : Store) : Item → Option Store
  | .array [.unsigned 0, .bytes digest, .bytes body, savedAt] => do
    let row : ImageRow := ⟨digest, body, ← fillInt64 savedAt⟩
    return { s with images := s.images ++ [row] }
  | .array [.unsigned 1, .bytes digest, .bytes name, .bytes body, savedAt] => do
    let row : ClassRow := ⟨digest, name, body, ← fillInt64 savedAt⟩
    return { s with classes := s.classes ++ [row] }
  | .array [.unsigned 2, .bytes id, .bytes image, .bytes entry, .bytes status, .bytes faultKind,
      .bytes fault, result, hasResult, instructions, invocations, maxDepth, startedAt,
      duration] => do
    let row : RunRow :=
      { id, image, entry, status, faultKind, fault
        result := ← fillInt64 result
        hasResult := ← fillInt64 hasResult
        instructions := ← fillInt64 instructions
        invocations := ← fillInt64 invocations
        maxDepth := ← fillInt64 maxDepth
        startedAt := ← fillInt64 startedAt
        duration := ← fillInt64 duration }
    return { s with runs := s.runs ++ [row] }
  | _ => none

/-- Whether bytes count as an empty file: one byte is not enough to be a file of its own. -/
def isBlank (file : Bytes) : Bool := file.length ≤ 1

/-- The store in a file, which may be new. -/
def decode (file : Bytes) : Option Store :=
  if isBlank file then some {}
  else
    let rows := file.drop (mark.length + 64)
    if file.take (mark.length + 64) = mark ++ Digest.hex rows then
      (decodeSequence rows).bind fun rows => rows.foldlM addItem {}
    else none

end MiniJvm.Store
