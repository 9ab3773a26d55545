import Polish.Walk

/-!
Event logs.  A log keeps which nodes a walk entered and left, in order, each
with its number and the name of its kind, and shows them one to a line.  It is
kept when the walk stops early, and then ends with the last node met.
-/

namespace Polish

inductive Phase
  | enter
  | exit
  deriving DecidableEq, Repr

def Phase.label : Phase → String
  | .enter => "enter"
  | .exit => "exit"

structure WalkEvent where
  id : Nat
  kind : String
  phase : Phase
  deriving DecidableEq, Repr

structure EventLog where
  events : Array WalkEvent
  deriving DecidableEq, Repr

namespace EventLog

def empty : EventLog :=
  ⟨#[]⟩

def record (log : EventLog) (e : WalkEvent) : EventLog :=
  ⟨log.events.push e⟩

def visitor {N : Type} [Walkable N] : Visitor N EventLog where
  enter here _ := modify (record · ⟨here.id, Walkable.kindName here.node, .enter⟩)
  exit here _ := modify (record · ⟨here.id, Walkable.kindName here.node, .exit⟩)

def ofTree {N : Type} [Walkable N] (root : N) : Except WalkError Unit × EventLog :=
  walk visitor root empty

/-- The events one to a line, each with its phase and the kind of its node. -/
def text (log : EventLog) : String :=
  String.intercalate "\n" (log.events.toList.map fun e => e.phase.label ++ " " ++ e.kind)

def countPhase (log : EventLog) (phase : Phase) : Nat :=
  log.events.toList.countP (·.phase = phase)

def maxId? (log : EventLog) : Option Nat :=
  (log.events.toList.map (·.id)).max?

end EventLog

end Polish
