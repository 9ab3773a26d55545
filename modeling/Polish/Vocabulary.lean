import Polish.Kind
import Polish.Total

/-!
A vocabulary is a type of trees in which every node has a kind and an ordered
list of children.  The size of a tree is its number of nodes, and the one law
asked of it, that a node adds one to its children, is what every recursion
over an unknown vocabulary ends by.

Counting the nodes of one kind goes through a stack of trees still to be
looked at, so it needs no recursion however deep a tree is.
-/

namespace Polish

class Vocabulary (N : Type) where
  kind : N → Kind
  children : N → List N
  size : N → Nat
  size_eq (n : N) : size n = 1 + total size (children n)

namespace Vocabulary

variable {N : Type} [Vocabulary N]

/-- Count the nodes of a kind in a stack of trees, on top of those counted
already.  The tree on top is looked at first, and its children go on the stack
with the last one uppermost. -/
def countPending (k : Kind) (pending : List N) (counted : Nat) : Nat :=
  match pending with
  | [] => counted
  | n :: rest =>
    countPending k ((children n).reverse ++ rest) (if kind n = k then counted + 1 else counted)
termination_by total size pending
decreasing_by
  simp [size_eq n]

def count (k : Kind) (n : N) : Nat :=
  countPending k [n] 0

end Vocabulary

end Polish
