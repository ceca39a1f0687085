import MiniJvm.Log

/-!
# Worker pools

A pool runs jobs on a fixed number of workers. A call puts its job into a bounded queue and waits
until the job has ended, its context is over or the pool stops. Everything that can happen is an
event, and `WorkerPool.step` says when it can and what it does; which of several possible events
comes next is left open. A call has a slot of its own for the ending of its job, so a worker can
always put it there, even if the call has gone.
-/

namespace MiniJvm

inductive Ending (ε α : Type) where
  | value (v : α)
  | error (e : ε)
  /-- The job broke down with a text; its worker goes on. -/
  | crashed (text : Bytes)
  deriving DecidableEq, Repr

inductive ContextEnd where
  | canceled
  | deadlineExceeded
  deriving DecidableEq, Repr

def ContextEnd.message : ContextEnd → Bytes
  | .canceled => "context canceled"
  | .deadlineExceeded => "context deadline exceeded"

/-- What a call returns. -/
inductive Reply (ε α : Type) where
  | ended (e : Ending ε α)
  | contextOver (why : ContextEnd)
  | stopped
  deriving DecidableEq, Repr

/-- A job: what it comes to when it is run, and what it logs. -/
abbrev Job (ε α : Type) := Unit → Ending ε α × List Log.Line

/-- How far a call has come. -/
inductive Phase (ε α : Type) where
  | submitting
  | waiting
  | returned (r : Reply ε α)
  deriving DecidableEq, Repr

structure Call (ε α : Type) where
  job : Job ε α
  /-- Why its context is over, if it is. -/
  context : Option ContextEnd := none
  phase : Phase ε α := .submitting
  /-- The ending of its job, once that was delivered and until it is taken. -/
  slot : Option (Ending ε α) := none

/-- What a worker does. The numbers are those of calls. -/
inductive Worker (ε α : Type) where
  | idle
  | running (call : Nat)
  | delivering (call : Nat) (e : Ending ε α)
  | gone
  deriving DecidableEq, Repr

/-- A pool with everyone who uses it. -/
structure WorkerPool (ε α : Type) where
  /-- All calls in the order in which they were made. -/
  calls : List (Call ε α) := []
  /-- The calls whose jobs wait for a worker, the oldest first. -/
  queue : List Nat := []
  workers : List (Worker ε α)
  /-- Whether the pool was told to stop. -/
  quit : Bool := false
  /-- The calls whose jobs were started, the oldest first. -/
  started : List Nat := []
  /-- The number of stops that wait for the workers. -/
  stopping : Nat := 0
  /-- The number of stops that have returned. -/
  stopped : Nat := 0
  log : List Log.Line := []

/-- What can happen to a pool. -/
inductive PoolEvent (ε α : Type) where
  /-- A call is made. -/
  | call (job : Job ε α)
  /-- The context of a call ends. -/
  | contextEnds (call : Nat) (why : ContextEnd)
  /-- A call puts its job into the queue. -/
  | submit (call : Nat)
  /-- A call takes the ending of its job and returns it. -/
  | receive (call : Nat)
  /-- A call returns because its context is over. -/
  | abandon (call : Nat)
  /-- A call returns because the pool stops. -/
  | refuse (call : Nat)
  /-- A worker takes the oldest job of the queue and starts it. -/
  | take (worker : Nat)
  /-- The job of a worker ends. -/
  | finish (worker : Nat)
  /-- A worker puts the ending of a job into the slot of its call. -/
  | deliver (worker : Nat)
  /-- A worker leaves because the pool stops. -/
  | leave (worker : Nat)
  /-- Someone tells the pool to stop and waits for the workers. -/
  | stop
  /-- A stop returns when all workers have gone. -/
  | join

/-- The line about a job that broke down. -/
def Ending.recovered {ε α : Type} : Ending ε α → List Log.Line
  | .crashed text => [⟨.error, "ristretto.server", "worker: recovered panic: " ++ text⟩]
  | _ => []

namespace Call

variable {ε α : Type}

def isSubmitting (c : Call ε α) : Bool :=
  match c.phase with
  | .submitting => true
  | _ => false

def isWaiting (c : Call ε α) : Bool :=
  match c.phase with
  | .waiting => true
  | _ => false

def isOpen (c : Call ε α) : Bool := c.isSubmitting || c.isWaiting

def returns (c : Call ε α) (r : Reply ε α) : Call ε α := { c with phase := .returned r }

def reply? (c : Call ε α) : Option (Reply ε α) :=
  match c.phase with
  | .returned r => some r
  | _ => none

end Call

namespace WorkerPool

variable {ε α : Type}

/-- The number of jobs that can wait in the queue. -/
def capacity : Nat := 64

/-- A pool of some workers, and of one at least. -/
def create (n : Int) : WorkerPool ε α := { workers := List.replicate (max n.toNat 1) .idle }

def setCall (p : WorkerPool ε α) (i : Nat) (c : Call ε α) : WorkerPool ε α :=
  { p with calls := p.calls.set i c }

def setWorker (p : WorkerPool ε α) (w : Nat) (s : Worker ε α) : WorkerPool ε α :=
  { p with workers := p.workers.set w s }

/-- The event of a call that has not returned. -/
def stepCall (p : WorkerPool ε α) (i : Nat) (c : Call ε α) : PoolEvent ε α → Option (WorkerPool ε α)
  | .contextEnds _ why =>
    if c.context.isNone then some (p.setCall i { c with context := some why }) else none
  | .submit _ =>
    if c.isSubmitting && p.queue.length < capacity then
      some { p.setCall i { c with phase := .waiting } with queue := p.queue ++ [i] }
    else none
  | .receive _ =>
    match c.slot with
    | some e =>
      if c.isWaiting then some (p.setCall i { c.returns (.ended e) with slot := none }) else none
    | none => none
  | .abandon _ => c.context.map fun why => p.setCall i (c.returns (.contextOver why))
  | .refuse _ => if p.quit then some (p.setCall i (c.returns .stopped)) else none
  | _ => none

def stepWorker (p : WorkerPool ε α) (w : Nat) (state : Worker ε α) :
    PoolEvent ε α → Option (WorkerPool ε α)
  | .take _ =>
    match state, p.queue with
    | .idle, i :: rest =>
      some { p.setWorker w (.running i) with queue := rest, started := p.started ++ [i] }
    | _, _ => none
  | .finish _ =>
    match state with
    | .running i =>
      (p.calls[i]?).map fun c =>
        let (e, log) := c.job ()
        { p.setWorker w (.delivering i e) with log := p.log ++ log ++ e.recovered }
    | _ => none
  | .deliver _ =>
    match state with
    | .delivering i e =>
      (p.calls[i]?).bind fun c =>
        if c.slot.isNone then some ((p.setCall i { c with slot := e }).setWorker w .idle) else none
    | _ => none
  | .leave _ =>
    match state with
    | .idle => if p.quit then some (p.setWorker w .gone) else none
    | _ => none
  | _ => none

def isGone : Worker ε α → Bool
  | .gone => true
  | _ => false

/-- The pool after an event, or nothing when the event cannot happen now. -/
def step (p : WorkerPool ε α) (e : PoolEvent ε α) : Option (WorkerPool ε α) :=
  match e with
  | .call job => some { p with calls := p.calls ++ [{ job }] }
  | .contextEnds i _ | .submit i | .receive i | .abandon i | .refuse i =>
    (p.calls[i]?).bind fun c => if c.isOpen then p.stepCall i c e else none
  | .take w | .finish w | .deliver w | .leave w =>
    (p.workers[w]?).bind fun state => p.stepWorker w state e
  | .stop => some { p with quit := true, stopping := p.stopping + 1 }
  | .join =>
    if 0 < p.stopping && p.workers.all isGone then
      some { p with stopping := p.stopping - 1, stopped := p.stopped + 1 }
    else none

/-- Events one after another; those that cannot happen are passed over. -/
def play (p : WorkerPool ε α) (es : List (PoolEvent ε α)) : WorkerPool ε α :=
  es.foldl (fun p e => (p.step e).getD p) p

def replyAfter (p : WorkerPool ε α) (i : Nat) (es : List (PoolEvent ε α)) :
    Option (Reply ε α) × WorkerPool ε α :=
  let p := p.play es
  ((p.calls[i]?).bind Call.reply?, p)

/-- A call that has the pool for itself. A pool that stops does not start its job. -/
def perform (p : WorkerPool ε α) (job : Job ε α) : Option (Reply ε α) × WorkerPool ε α :=
  let i := p.calls.length
  p.replyAfter i
    (if p.quit then [.call job, .refuse i]
    else [.call job, .submit i, .take 0, .finish 0, .deliver 0, .receive i])

/-- A call whose context ends while its job runs; the job still runs to its end. -/
def performAbandoned (p : WorkerPool ε α) (job : Job ε α) (why : ContextEnd) :
    Option (Reply ε α) × WorkerPool ε α :=
  let i := p.calls.length
  p.replyAfter i
    (if p.quit then [.call job, .refuse i]
    else [.call job, .submit i, .take 0, .contextEnds i why, .abandon i, .finish 0, .deliver 0])

def performExpired (p : WorkerPool ε α) (job : Job ε α) (why : ContextEnd) :
    Option (Reply ε α) × WorkerPool ε α :=
  let i := p.calls.length
  p.replyAfter i [.call job, .contextEnds i why, .abandon i]

/-- Gives the first worker a job that it keeps running. -/
def occupy (p : WorkerPool ε α) (job : Job ε α) : WorkerPool ε α :=
  p.play [.call job, .submit p.calls.length, .take 0]

def shutdown (p : WorkerPool ε α) : WorkerPool ε α :=
  p.play (.stop :: (List.range p.workers.length).map .leave ++ [.join])

end WorkerPool

end MiniJvm
