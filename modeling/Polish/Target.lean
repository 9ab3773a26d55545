import Polish.Vocabulary

/-!
Target trees.  A call has an identifier for its callee, which is a part of the
node and not one of its children, and a call that stands for itself is wrapped
in a statement.
-/

namespace Polish

structure Identifier where
  name : String
  deriving DecidableEq, Repr

inductive Target
  | program (body : List Target)
  | statement (expression : Target)
  | call (callee : Identifier) (arguments : List Target)
  | identifier (name : String)
  | number (value : String)
  | string (value : String)
  deriving Repr

namespace Target

def kind : Target → Kind
  | .program _ => .program
  | .statement _ => .expressionStatement
  | .call _ _ => .callExpression
  | .identifier _ => .identifier
  | .number _ => .numberLiteral
  | .string _ => .stringLiteral

def children : Target → List Target
  | .program body => body
  | .statement expression => [expression]
  | .call _ arguments => arguments
  | .identifier _ => []
  | .number _ => []
  | .string _ => []

mutual

def size : Target → Nat
  | .program body => 1 + sizeList body
  | .statement expression => 1 + expression.size
  | .call _ arguments => 1 + sizeList arguments
  | .identifier _ => 1
  | .number _ => 1
  | .string _ => 1

def sizeList : List Target → Nat
  | [] => 0
  | t :: ts => t.size + sizeList ts

end

theorem sizeList_eq (ts : List Target) : sizeList ts = total size ts := by
  induction ts with
  | nil => rfl
  | cons t ts ih => simp [sizeList, ih]

instance : Vocabulary Target where
  kind := kind
  children := children
  size := size
  size_eq t := by cases t <;> simp [size, children, sizeList_eq]

mutual

def beq : Target → Target → Bool
  | .program xs, .program ys => beqList xs ys
  | .statement x, .statement y => x.beq y
  | .call f xs, .call g ys => f == g && beqList xs ys
  | .identifier n, .identifier m => n == m
  | .number v, .number w => v == w
  | .string v, .string w => v == w
  | _, _ => false

def beqList : List Target → List Target → Bool
  | [], [] => true
  | x :: xs, y :: ys => x.beq y && beqList xs ys
  | _, _ => false

end

mutual

theorem beq_iff : (a b : Target) → (a.beq b = true ↔ a = b)
  | .program xs, b => by cases b <;> simp [beq, beqList_iff xs]
  | .statement x, b => by cases b <;> simp [beq, beq_iff x]
  | .call f xs, b => by cases b <;> simp [beq, beqList_iff xs]
  | .identifier n, b => by cases b <;> simp [beq]
  | .number v, b => by cases b <;> simp [beq]
  | .string v, b => by cases b <;> simp [beq]

theorem beqList_iff : (xs ys : List Target) → (beqList xs ys = true ↔ xs = ys)
  | [], ys => by cases ys <;> simp [beqList]
  | x :: xs, ys => by
    cases ys with
    | nil => simp [beqList]
    | cons y ys => simp [beqList, beq_iff x y, beqList_iff xs ys]

end

instance : DecidableEq Target := fun a b => decidable_of_iff _ (beq_iff a b)

end Target

end Polish
