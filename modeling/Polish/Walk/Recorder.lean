import Polish.Walk.EventLog

/-!
A recorder notes every call made to a visitor with all that the call tells.
It can be given a kind and a phase to refuse: the first call that has both is
noted like any other and then ends the walk.
-/

namespace Polish

/-- A call to a visitor: the phase, the kind and number of the node, and the
number of its parent. -/
structure Callback where
  phase : Phase
  kind : String
  id : Nat
  parent : Option Nat
  deriving DecidableEq, Repr

/-- A kind, by name, and the phase in which to refuse it. -/
structure Refusal where
  kind : String
  phase : Phase
  deriving DecidableEq, Repr

namespace Recorder

def refuse (kind : String) : WalkError :=
  match Kind.ofName? kind with
  | some k => .detached k
  | none => .unknownKind kind

/-- Note one call, and refuse it if asked to. -/
def note {N : Type} [Walkable N] (refusal : Option Refusal) (phase : Phase) (here : Located N)
    (parent : Option (Located N)) : VisitM (Array Callback) Unit := do
  let kind := Walkable.kindName here.node
  modify (·.push ⟨phase, kind, here.id, parent.map (·.id)⟩)
  if refusal = some ⟨kind, phase⟩ then throw (refuse kind)

def visitor {N : Type} [Walkable N] (refusal : Option Refusal) : Visitor N (Array Callback) where
  enter := note refusal .enter
  exit := note refusal .exit

def ofTree {N : Type} [Walkable N] (refusal : Option Refusal) (root : N) :
    Except WalkError Unit × Array Callback :=
  walk (visitor refusal) root #[]

end Recorder

end Polish
