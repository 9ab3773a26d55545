import Polish.Fallible
import Polish.Vocabulary

/-!
Walking a tree.  A walk goes depth first, from the root, and hands every node
to a visitor twice: on entry, before its children, and on exit, after them.
Nodes are numbered in the order of their entry, from zero, and a visitor is
told the number of the node and of its parent, so it can keep tables by number
and compare nodes that look alike.

A visitor has a state and may refuse a node.  The walk stops at the first
refusal, and at the first node whose children cannot be told, and the state
of that moment is kept: what was seen before an error is not lost with it.

What a walk needs to know of a tree is less than a vocabulary gives: the name
of each node's kind, and its children or an error in place of them.
-/

namespace Polish

/-- Why a walk stops: a node of an unknown kind has no known children, and a
visitor may find that a node cannot stand where it does. -/
inductive WalkError
  | unknownKind (type : String)
  | detached (kind : Kind)
  deriving DecidableEq, Repr

def WalkError.message : WalkError → String
  | .unknownKind type => "unknown node kind '" ++ type ++ "'"
  | .detached kind => kind.name ++ " has no insertion slot in its parent"

class Walkable (N : Type) where
  kindName : N → String
  children : N → Except WalkError (List N)
  size : N → Nat
  size_pos (n : N) : 0 < size n
  size_children {n : N} {cs : List N} : children n = .ok cs → total size cs < size n

/-- Where every node has a kind, a walk never fails of itself. -/
instance {N : Type} [Vocabulary N] : Walkable N where
  kindName n := (Vocabulary.kind n).name
  children n := .ok (Vocabulary.children n)
  size := Vocabulary.size
  size_pos n := by rw [Vocabulary.size_eq]; omega
  size_children h := by
    cases h
    rw [Vocabulary.size_eq]
    omega

structure Located (N : Type) where
  node : N
  id : Nat
  deriving Repr

abbrev VisitM (σ : Type) := Fallible WalkError σ

/-- What to do at entry and exit of a node, given the node and its parent. -/
structure Visitor (N σ : Type) where
  enter : Located N → Option (Located N) → VisitM σ Unit := fun _ _ => pure ()
  exit : Located N → Option (Located N) → VisitM σ Unit := fun _ _ => pure ()

namespace Walk

variable {N σ : Type} [Walkable N]

mutual

/-- Walk a tree whose root gets the number `next`; the result is the first
number not given away. -/
def visit (v : Visitor N σ) (n : N) (parent : Option (Located N)) (next : Nat) :
    VisitM σ Nat := do
  let here : Located N := ⟨n, next⟩
  v.enter here parent
  match _h : Walkable.children n with
  | .error e => throw e
  | .ok cs =>
    let after ← visitAll v cs here (next + 1)
    v.exit here parent
    return after
termination_by 2 * Walkable.size n
decreasing_by
  have := Walkable.size_children _h
  omega

def visitAll (v : Visitor N σ) (ns : List N) (parent : Located N) (next : Nat) :
    VisitM σ Nat := do
  match ns with
  | [] => return next
  | n :: rest =>
    let after ← visit v n (some parent) next
    visitAll v rest parent after
termination_by 2 * total Walkable.size ns + 1
decreasing_by
  · rw [total_cons]
    omega
  · have := Walkable.size_pos n
    rw [total_cons]
    omega

end

theorem outcome_visit (v : Visitor N σ) (n : N) (parent : Option (Located N)) (next : Nat)
    (s : σ) :
    Fallible.outcome (visit v n parent next) s =
      match Fallible.outcome (v.enter ⟨n, next⟩ parent) s with
      | (.error e, s) => (.error e, s)
      | (.ok (), s) =>
        match Walkable.children n with
        | .error e => (.error e, s)
        | .ok cs =>
          match Fallible.outcome (visitAll v cs ⟨n, next⟩ (next + 1)) s with
          | (.error e, s) => (.error e, s)
          | (.ok after, s) =>
            match Fallible.outcome (v.exit ⟨n, next⟩ parent) s with
            | (.error e, s) => (.error e, s)
            | (.ok (), s) => (.ok after, s) := by
  rw [visit, Fallible.outcome_bind]
  rcases Fallible.outcome (v.enter ⟨n, next⟩ parent) s with ⟨_ | _, s⟩
  · rfl
  · cases Walkable.children n with
    | error e => rfl
    | ok cs =>
      simp only [Fallible.outcome_bind]
      rcases Fallible.outcome (visitAll v cs ⟨n, next⟩ (next + 1)) s with ⟨_ | _, s⟩
      · rfl
      · dsimp only
        rcases Fallible.outcome (v.exit ⟨n, next⟩ parent) s with ⟨_ | _, s⟩ <;> rfl

@[simp] theorem outcome_visitAll_nil (v : Visitor N σ) (parent : Located N) (next : Nat)
    (s : σ) : Fallible.outcome (visitAll v [] parent next) s = (.ok next, s) := by
  rw [visitAll, Fallible.outcome_pure]

theorem outcome_visitAll_cons (v : Visitor N σ) (n : N) (ns : List N) (parent : Located N)
    (next : Nat) (s : σ) :
    Fallible.outcome (visitAll v (n :: ns) parent next) s =
      match Fallible.outcome (visit v n (some parent) next) s with
      | (.error e, s) => (.error e, s)
      | (.ok after, s) => Fallible.outcome (visitAll v ns parent after) s := by
  rw [visitAll, Fallible.outcome_bind]
  rcases Fallible.outcome (visit v n (some parent) next) s with ⟨_ | _, s⟩ <;> rfl

end Walk

/-- Walk a whole tree from a state of the visitor: how the walk ended, and the
state it left. -/
def walk {N σ : Type} [Walkable N] (v : Visitor N σ) (root : N) (start : σ) :
    Except WalkError Unit × σ :=
  let (ending, state) := Fallible.outcome (Walk.visit v root none 0) start
  (ending.map fun _ => (), state)

end Polish
