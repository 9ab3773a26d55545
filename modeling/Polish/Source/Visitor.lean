import Polish.Source
import Polish.Walk.EventLog

/-!
Visitors of source trees.  Instead of one action for all nodes there is one
for each kind of node and each phase, and the tree itself decides which of
them a node goes to.
-/

namespace Polish

abbrev SourceAction (σ : Type) := Located Source → Option (Located Source) → VisitM σ Unit

/-- What to do at entry and exit of each kind of node; nothing unless said. -/
structure SourceVisitor (σ : Type) where
  enterProgram : SourceAction σ := fun _ _ => pure ()
  exitProgram : SourceAction σ := fun _ _ => pure ()
  enterNumber : SourceAction σ := fun _ _ => pure ()
  exitNumber : SourceAction σ := fun _ _ => pure ()
  enterString : SourceAction σ := fun _ _ => pure ()
  exitString : SourceAction σ := fun _ _ => pure ()
  enterCall : SourceAction σ := fun _ _ => pure ()
  exitCall : SourceAction σ := fun _ _ => pure ()

namespace SourceVisitor

variable {σ : Type}

def toVisitor (v : SourceVisitor σ) : Visitor Source σ where
  enter here parent :=
    match here.node with
    | .program _ => v.enterProgram here parent
    | .number _ => v.enterNumber here parent
    | .string _ => v.enterString here parent
    | .call _ _ => v.enterCall here parent
  exit here parent :=
    match here.node with
    | .program _ => v.exitProgram here parent
    | .number _ => v.exitNumber here parent
    | .string _ => v.exitString here parent
    | .call _ _ => v.exitCall here parent

def walk (v : SourceVisitor σ) (root : Source) (start : σ) : Except WalkError Unit × σ :=
  Polish.walk v.toVisitor root start

end SourceVisitor

/-- An action that was taken: which one, at which node, below which parent, and
the text that the node carries. -/
structure SourceCall where
  phase : Phase
  kind : Kind
  id : Nat
  parent : Option Nat
  label : Option String
  deriving DecidableEq, Repr

namespace SourceCall

/-- Note an action if it is watched.  The note that is the `failAt`-th, counted
from one, ends the walk. -/
def note (watched : Phase → Kind → Bool) (failAt : Nat) (phase : Phase) (kind : Kind) :
    SourceAction (Array SourceCall) := fun here parent => do
  if watched phase kind then
    modify (·.push ⟨phase, kind, here.id, parent.map (·.id), here.node.label?⟩)
    if (← get).size = failAt then throw (.detached kind)

def watcher (watched : Phase → Kind → Bool) (failAt : Nat) : SourceVisitor (Array SourceCall) where
  enterProgram := note watched failAt .enter .program
  exitProgram := note watched failAt .exit .program
  enterNumber := note watched failAt .enter .numberLiteral
  exitNumber := note watched failAt .exit .numberLiteral
  enterString := note watched failAt .enter .stringLiteral
  exitString := note watched failAt .exit .stringLiteral
  enterCall := note watched failAt .enter .callExpression
  exitCall := note watched failAt .exit .callExpression

end SourceCall

end Polish
