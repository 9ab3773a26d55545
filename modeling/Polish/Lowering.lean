import Polish.Slots
import Polish.Source.Visitor

/-!
Lowering a source tree into a target tree.  One walk over the source fills a
table of slots: literals go as they are into the slot of their parent, and a
call goes there with a slot of its own for its parameters.  A call directly in
a program is a statement; a call inside a call is an expression.

A program inside another node has no slot to go to, and neither has a root
that is not a program; both are refused.
-/

namespace Polish

namespace Lowering

/-- Put an entry for a node into the slot of its parent. -/
def append (table : Slots) (entry : Entry) (h : entry.InRange table.slots.size) :
    SourceAction Slots := fun here parent =>
  match table.slotOf? (parent.map (·.id)) with
  | none => throw (.detached here.node.kind)
  | some slot => set (table.append slot entry h)

def enterLiteral : SourceAction Slots := fun here parent => do
  match here.node with
  | .number value => append (← get) (.node (.number value)) (Entry.inRange_node _ _) here parent
  | .string value => append (← get) (.node (.string value)) (Entry.inRange_node _ _) here parent
  | _ => pure ()

/-- Only the root may be a program, and its slot is there from the start. -/
def enterProgram : SourceAction Slots := fun here parent =>
  match parent with
  | some _ => throw (.detached here.node.kind)
  | none => pure ()

/-- What a call puts into the slot of its parent: a reference to the slot that is
reserved for it in the table. -/
def callEntry (table : Slots) (parent : Option (Located Source)) (name : String) : Entry :=
  let statement := match parent with
    | some p => p.node.kind != .callExpression
    | none => true
  .call ⟨name⟩ table.slots.size statement

theorem inRange_callEntry (table : Slots) (parent : Option (Located Source)) (name : String)
    (id : Nat) : (callEntry table parent name).InRange (table.reserve id).slots.size := by
  intro j hj
  cases hj
  exact Nat.lt_of_lt_of_eq (Nat.lt_succ_self _) (Array.size_push _).symm

/-- A call reserves a slot for what is below it. -/
def enterCall : SourceAction Slots := fun here parent => do
  match here.node with
  | .call name _ =>
    let table ← get
    let entry := callEntry table parent name
    let reserved := table.reserve here.id
    set reserved
    append reserved entry (inRange_callEntry table parent name here.id) here parent
  | _ => pure ()

def visitor : SourceVisitor Slots where
  enterProgram := enterProgram
  enterNumber := enterLiteral
  enterString := enterLiteral
  enterCall := enterCall

end Lowering

/-- The target tree of a source tree, or the first node that has no place. -/
def lower (root : Source) : Except WalkError Target :=
  match Lowering.visitor.walk root Slots.initial with
  | (.error e, _) => .error e
  | (.ok (), table) => .ok table.finish

end Polish
