import MiniJvm.Text.Bytes

/-!
# Log lines

What the parts of the program report beside their results. A verbosity lets through the levels
up to it.
-/

namespace MiniJvm.Log

inductive Level where
  | critical
  | error
  | warning
  | notice
  | info
  | debug
  deriving DecidableEq, Repr

namespace Level

def name : Level → String
  | .critical => "Critical"
  | .error => "Error"
  | .warning => "Warning"
  | .notice => "Notice"
  | .info => "Info"
  | .debug => "Debug"

def leastVerbosity : Level → Int
  | .critical => -3
  | .error => -2
  | .warning => -1
  | .notice => 0
  | .info => 1
  | .debug => 2

end Level

/-- One line: its level, the part of the program that wrote it, and the message. -/
structure Line where
  level : Level
  source : Bytes
  message : Bytes
  deriving DecidableEq, Repr

def Line.text (l : Line) : Bytes := (l.level.name : Bytes) ++ " " ++ l.source ++ ": " ++ l.message

/-- The lines a verbosity lets through. -/
def visible (verbosity : Int) (lines : List Line) : List Line :=
  lines.filter fun l => l.level.leastVerbosity ≤ verbosity

end MiniJvm.Log
