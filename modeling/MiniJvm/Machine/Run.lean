import MiniJvm.Machine.CallStack
import MiniJvm.Machine.Load

/-!
# Runs

A run starts the method under a signature on a call stack of its own and ends when the stack is
empty or a fault aborts it.
-/

namespace MiniJvm

inductive Verdict where
  | completed
  | faulted
  deriving DecidableEq, Repr

namespace Verdict

def name : Verdict → String
  | .completed => "Completed"
  | .faulted => "Faulted"

def nameOfCode : Nat → Bytes
  | 1 => "Completed"
  | 2 => "Faulted"
  | _ => "Unknown"

end Verdict

structure ExitStatus where
  fault : Option Fault
  /-- The value that the entry method returned. -/
  result : Option Int32
  stats : Stats
  deriving DecidableEq, Repr

/-- A run without a fault has completed. -/
def ExitStatus.verdict (s : ExitStatus) : Verdict :=
  if s.fault.isNone then .completed else .faulted

inductive RunEvent where
  | started (entry : Bytes)
  | traced (event : TraceEvent)
  | completed (entry : Bytes) (stats : Stats)
  | faulted (entry : Bytes) (fault : Fault)
  deriving DecidableEq, Repr

def Fault.text (f : Fault) : Bytes := (f.kind.name : Bytes) ++ ": " ++ f.message

def RunEvent.line : RunEvent → Log.Line
  | .started entry => ⟨.debug, "ristretto.vm", "run " ++ entry⟩
  | .traced event => ⟨.debug, "ristretto.vm", event.message⟩
  | .completed entry stats =>
    ⟨.debug, "ristretto.vm", "run " ++ entry ++ " completed: " ++ Bytes.ofNat stats.instructions
      ++ " instructions, " ++ Bytes.ofNat stats.invocations ++ " invocations, depth "
      ++ Bytes.ofNat stats.maxDepth⟩
  | .faulted entry fault =>
    ⟨.warning, "ristretto.vm", "run " ++ entry ++ " faulted: " ++ fault.text⟩

/-- What is known of a run after a number of steps. -/
inductive RunOutcome where
  | ended (status : ExitStatus)
  | crashed (crash : Crash)
  /-- The steps did not suffice. -/
  | unfinished
  deriving DecidableEq, Repr

structure RunReport where
  outcome : RunOutcome
  events : List RunEvent
  deriving DecidableEq, Repr

def RunReport.log (report : RunReport) : List Log.Line := report.events.map RunEvent.line

namespace Registry

/-- The call stack with the frame of the entry method. -/
def start (r : Registry) (entry : Bytes) (args : List Int32) (trace : Bool) :
    Except Stop CallStack :=
  match CallStack.find r entry with
  | .error e => .error (.fault (.lookup e))
  | .ok (m, pool) => do
    let f ← Frame.create m pool args
    return (CallStack.create r trace).push f

def stopped (entry : Bytes) (stats : Stats) : Stop → RunOutcome × List RunEvent
  | .crash c => (.crashed c, [])
  | .fault f => (.ended { fault := some f, result := none, stats }, [.faulted entry f])

def finish (entry : Bytes) : Progress → RunOutcome × List RunEvent
  | .running _ => (.unfinished, [])
  | .stopped why c => stopped entry c.stats why
  | .finished c =>
    (.ended { fault := none, result := c.result, stats := c.stats }, [.completed entry c.stats])

/-- The reports of the call stack behind a progress. -/
def traceOf : Progress → List RunEvent
  | .running c | .finished c | .stopped _ c => c.events.toList.map .traced

/-- Runs a method for at most `fuel` steps. -/
def execute (r : Registry) (fuel : Nat) (entry : Bytes) (args : List Int32) (trace : Bool) :
    RunReport :=
  match r.start entry args trace with
  | .error why =>
    let (outcome, events) := stopped entry {} why
    ⟨outcome, events⟩
  | .ok c =>
    let progress := c.run fuel
    let (outcome, events) := finish entry progress
    ⟨outcome, .started entry :: traceOf progress ++ events⟩

end Registry

end MiniJvm
