import Polish.Source
import Polish.Target

/-!
Untyped nodes: one record with room for the fields of every kind of node, in
either vocabulary, each of them optional, and with any text at all for its
kind.  This is what a tree looks like when nothing about it has been checked.
A list that is there and empty is not the same as a list that is absent.

Both kinds of tree have an untyped form, in which a node has exactly the
fields of its kind.
-/

namespace Polish

/-- A node of which nothing is known. -/
structure Untyped where
  type : String
  value : Option String := none
  name : Option String := none
  params : Option (List Untyped) := none
  body : Option (List Untyped) := none
  expression : Option Untyped := none
  callee : Option Untyped := none
  arguments : Option (List Untyped) := none
  deriving Repr

namespace Untyped

inductive Field
  | value
  | name
  | params
  | body
  | expression
  | callee
  | arguments
  deriving DecidableEq, Repr

def Field.label : Field → String
  | .value => "value"
  | .name => "name"
  | .params => "params"
  | .body => "body"
  | .expression => "expression"
  | .callee => "callee"
  | .arguments => "arguments"

/-- The kind that a node claims to be, if it is one. -/
def kind? (n : Untyped) : Option Kind :=
  Kind.ofName? n.type

mutual

/-- The number of nodes of a record, whatever field they stand in. -/
def size : Untyped → Nat
  | ⟨_, _, _, params, body, expression, callee, arguments⟩ =>
    1 + sizeNodes params + sizeNodes body + sizeNode expression + sizeNode callee
      + sizeNodes arguments

def sizeNode : Option Untyped → Nat
  | none => 0
  | some n => n.size

def sizeNodes : Option (List Untyped) → Nat
  | none => 0
  | some ns => sizeList ns

def sizeList : List Untyped → Nat
  | [] => 0
  | n :: ns => n.size + sizeList ns

end

theorem sizeList_eq (ns : List Untyped) : sizeList ns = total size ns := by
  induction ns with
  | nil => rfl
  | cons n ns ih => simp [sizeList, ih]

theorem size_pos (n : Untyped) : 0 < n.size := by
  cases n
  simp only [size]
  omega

mutual

def beq : Untyped → Untyped → Bool
  | ⟨type, value, name, params, body, expression, callee, arguments⟩,
    ⟨type', value', name', params', body', expression', callee', arguments'⟩ =>
    type == type' && value == value' && name == name' && beqNodes params params'
      && beqNodes body body' && beqNode expression expression' && beqNode callee callee'
      && beqNodes arguments arguments'

def beqNode : Option Untyped → Option Untyped → Bool
  | none, none => true
  | some a, some b => a.beq b
  | _, _ => false

def beqNodes : Option (List Untyped) → Option (List Untyped) → Bool
  | none, none => true
  | some xs, some ys => beqList xs ys
  | _, _ => false

def beqList : List Untyped → List Untyped → Bool
  | [], [] => true
  | x :: xs, y :: ys => x.beq y && beqList xs ys
  | _, _ => false

end

mutual

theorem beq_iff : (a b : Untyped) → (a.beq b = true ↔ a = b)
  | ⟨type, value, name, params, body, expression, callee, arguments⟩,
    ⟨type', value', name', params', body', expression', callee', arguments'⟩ => by
    simp [beq, beqNodes_iff params params', beqNodes_iff body body',
      beqNode_iff expression expression', beqNode_iff callee callee',
      beqNodes_iff arguments arguments', and_assoc]

theorem beqNode_iff : (a b : Option Untyped) → (beqNode a b = true ↔ a = b)
  | none, b => by cases b <;> simp [beqNode]
  | some a, b => by
    cases b with
    | none => simp [beqNode]
    | some b => simp [beqNode, beq_iff a b]

theorem beqNodes_iff : (xs ys : Option (List Untyped)) → (beqNodes xs ys = true ↔ xs = ys)
  | none, ys => by cases ys <;> simp [beqNodes]
  | some xs, ys => by
    cases ys with
    | none => simp [beqNodes]
    | some ys => simp [beqNodes, beqList_iff xs ys]

theorem beqList_iff : (xs ys : List Untyped) → (beqList xs ys = true ↔ xs = ys)
  | [], ys => by cases ys <;> simp [beqList]
  | x :: xs, ys => by
    cases ys with
    | nil => simp [beqList]
    | cons y ys => simp [beqList, beq_iff x y, beqList_iff xs ys]

end

instance : DecidableEq Untyped := fun a b => decidable_of_iff _ (beq_iff a b)

mutual

def ofSource : Source → Untyped
  | .program body => { type := Kind.program.name, body := some (ofSources body) }
  | .number value => { type := Kind.numberLiteral.name, value := some value }
  | .string value => { type := Kind.stringLiteral.name, value := some value }
  | .call name params =>
    { type := Kind.callExpression.name, name := some name, params := some (ofSources params) }

def ofSources : List Source → List Untyped
  | [] => []
  | t :: ts => ofSource t :: ofSources ts

end

def ofIdentifier (i : Identifier) : Untyped :=
  { type := Kind.identifier.name, name := some i.name }

mutual

def ofTarget : Target → Untyped
  | .program body => { type := Kind.program.name, body := some (ofTargets body) }
  | .statement expression =>
    { type := Kind.expressionStatement.name, expression := some (ofTarget expression) }
  | .call callee arguments =>
    { type := Kind.callExpression.name, callee := some (ofIdentifier callee),
      arguments := some (ofTargets arguments) }
  | .identifier name => { type := Kind.identifier.name, name := some name }
  | .number value => { type := Kind.numberLiteral.name, value := some value }
  | .string value => { type := Kind.stringLiteral.name, value := some value }

def ofTargets : List Target → List Untyped
  | [] => []
  | t :: ts => ofTarget t :: ofTargets ts

end

theorem ofTargets_eq_map (ts : List Target) : ofTargets ts = ts.map ofTarget := by
  induction ts with
  | nil => rfl
  | cons t ts ih => simp [ofTargets, ih]

end Untyped

end Polish
