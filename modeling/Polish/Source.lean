import Polish.Vocabulary

/-!
Source trees: what a text says once its brackets are matched.  A program is a
sequence of literals and calls, and a call has a name and parameters.  Nothing
in the type keeps a program from standing inside a call or a literal from
being the root; reading a text never builds such a tree, and lowering refuses
it.
-/

namespace Polish

inductive Source
  | program (body : List Source)
  | number (value : String)
  | string (value : String)
  | call (name : String) (params : List Source)
  deriving Repr

namespace Source

def kind : Source → Kind
  | .program _ => .program
  | .number _ => .numberLiteral
  | .string _ => .stringLiteral
  | .call _ _ => .callExpression

def children : Source → List Source
  | .program body => body
  | .number _ => []
  | .string _ => []
  | .call _ params => params

/-- The text a node carries: the value of a literal, the name of a call. -/
def label? : Source → Option String
  | .program _ => none
  | .number value => some value
  | .string value => some value
  | .call name _ => some name

mutual

def size : Source → Nat
  | .program body => 1 + sizeList body
  | .number _ => 1
  | .string _ => 1
  | .call _ params => 1 + sizeList params

def sizeList : List Source → Nat
  | [] => 0
  | t :: ts => t.size + sizeList ts

end

theorem sizeList_eq (ts : List Source) : sizeList ts = total size ts := by
  induction ts with
  | nil => rfl
  | cons t ts ih => simp [sizeList, ih]

instance : Vocabulary Source where
  kind := kind
  children := children
  size := size
  size_eq t := by cases t <;> simp [size, children, sizeList_eq]

mutual

def beq : Source → Source → Bool
  | .program xs, .program ys => beqList xs ys
  | .number v, .number w => v == w
  | .string v, .string w => v == w
  | .call n xs, .call m ys => n == m && beqList xs ys
  | _, _ => false

def beqList : List Source → List Source → Bool
  | [], [] => true
  | x :: xs, y :: ys => x.beq y && beqList xs ys
  | _, _ => false

end

mutual

theorem beq_iff : (a b : Source) → (a.beq b = true ↔ a = b)
  | .program xs, b => by cases b <;> simp [beq, beqList_iff xs]
  | .number v, b => by cases b <;> simp [beq]
  | .string v, b => by cases b <;> simp [beq]
  | .call n xs, b => by cases b <;> simp [beq, beqList_iff xs]

theorem beqList_iff : (xs ys : List Source) → (beqList xs ys = true ↔ xs = ys)
  | [], ys => by cases ys <;> simp [beqList]
  | x :: xs, ys => by
    cases ys with
    | nil => simp [beqList]
    | cons y ys => simp [beqList, beq_iff x y, beqList_iff xs ys]

end

instance : DecidableEq Source := fun a b => decidable_of_iff _ (beq_iff a b)

end Source

end Polish
