import Polish.Fallible
import Polish.Source
import Polish.Stage
import Polish.Target
import Polish.Token

/-!
The trace of a run.  Every stage is a span, which is entered and left whether
the stage succeeds or not.  A stage that succeeds reports twice: how much it
made, for those who follow a run, and what it made, for those who look closely.
A run that fails reports this last.

A traced computation keeps its lines when it fails, so the trace of a failed
run is as complete as that of any other.
-/

namespace Polish

/-- How close a look a report is meant for. -/
inductive Level
  | debug
  | trace
  deriving DecidableEq, Repr

def Level.label : Level → String
  | .debug => "DEBUG"
  | .trace => "TRACE"

inductive Report
  | tokenized (tokens : Nat)
  | tokens (tokens : List Token)
  | parsed (statements : Nat)
  | source (tree : Source)
  | transformed (statements : Nat)
  | target (tree : Target)
  | generated (bytes : Nat)
  | output (text : String)
  | failed (stage : Stage) (error : String)
  deriving DecidableEq, Repr

namespace Report

def level : Report → Level
  | .tokens _ => .trace
  | .source _ => .trace
  | .target _ => .trace
  | .output _ => .trace
  | _ => .debug

def message? : Report → Option String
  | .tokenized _ => some "tokenized"
  | .parsed _ => some "parsed"
  | .transformed _ => some "transformed"
  | .generated _ => some "generated"
  | .failed _ _ => some "compilation failed"
  | _ => none

end Report

inductive TraceLine
  | enter (stage : Stage)
  | exit (stage : Stage)
  | report (r : Report)
  deriving DecidableEq, Repr

/-- A computation that may fail with the error of a stage and leaves a trace. -/
abbrev Traced := Fallible CompileError (Array TraceLine)

namespace Traced

variable {α ε : Type}

def line (l : TraceLine) : Traced Unit :=
  modify (·.push l)

def report (r : Report) : Traced Unit :=
  line (.report r)

/-- What a stage came to, inside the span of that stage. -/
def span (stage : Stage) (wrap : ε → CompileError) (outcome : Except ε α) : Traced α := do
  line (.enter stage)
  line (.exit stage)
  match outcome with
  | .error e => throw (wrap e)
  | .ok a => return a

def reportingFailure (x : Traced α) : Traced α :=
  tryCatch x fun e => do
    report (.failed e.stage e.message)
    throw e

def runTrace (x : Traced α) : Except CompileError α × List TraceLine :=
  let (outcome, lines) := Fallible.outcome x #[]
  (outcome, lines.toList)

end Traced

end Polish
