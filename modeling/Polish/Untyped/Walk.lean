import Polish.Untyped
import Polish.Walk

/-!
Walking untyped nodes.  The kind of a node says which field holds its
children; a field that is absent holds none.  A call may come from either
vocabulary, so its children are its parameters, and its arguments only if it
has no parameters.  Callees are not walked.
-/

namespace Polish

namespace Untyped

def children (n : Untyped) : Except WalkError (List Untyped) :=
  match n.kind? with
  | none => .error (.unknownKind n.type)
  | some .program => .ok (n.body.getD [])
  | some .callExpression => .ok ((n.params.or n.arguments).getD [])
  | some .expressionStatement => .ok n.expression.toList
  | some .identifier => .ok []
  | some .numberLiteral => .ok []
  | some .stringLiteral => .ok []

theorem total_size_getD (field : Option (List Untyped)) :
    total size (field.getD []) = sizeNodes field := by
  cases field <;> simp [sizeNodes, sizeList_eq]

theorem total_size_toList (field : Option Untyped) :
    total size field.toList = sizeNode field := by
  cases field <;> simp [sizeNode]

theorem total_size_children_lt {n : Untyped} {cs : List Untyped} (h : n.children = .ok cs) :
    total size cs < n.size := by
  obtain ⟨type, value, name, params, body, expression, callee, arguments⟩ := n
  simp only [size]
  unfold children at h
  split at h
  · cases h
  · cases h
    rw [total_size_getD]
    dsimp only
    omega
  · cases h
    rw [total_size_getD]
    -- One of the two fields is the one chosen.
    cases params with
    | none => simp only [Option.none_or]; omega
    | some ps => simp only [Option.some_or]; omega
  · cases h
    rw [total_size_toList]
    dsimp only
    omega
  · cases h
    rw [total_nil]
    omega
  · cases h
    rw [total_nil]
    omega
  · cases h
    rw [total_nil]
    omega

instance : Walkable Untyped where
  kindName n := n.type
  children := children
  size := size
  size_pos := size_pos
  size_children := total_size_children_lt

end Untyped

end Polish
