import Polish.Json

/-!
The kinds of node, shared by the two vocabularies of trees.  A source tree has
programs, literals and calls; a target tree has all six.  The names are the
ones that JSON, messages and records of a walk use; in JSON a node says its kind
under the key `type`.
-/

namespace Polish

inductive Kind
  | program
  | numberLiteral
  | stringLiteral
  | callExpression
  | expressionStatement
  | identifier
  deriving DecidableEq, Repr

namespace Kind

def all : List Kind :=
  [.program, .numberLiteral, .stringLiteral, .callExpression, .expressionStatement, .identifier]

def name : Kind → String
  | .program => "Program"
  | .numberLiteral => "NumberLiteral"
  | .stringLiteral => "StringLiteral"
  | .callExpression => "CallExpression"
  | .expressionStatement => "ExpressionStatement"
  | .identifier => "Identifier"

/-- The kind with a given name; case matters. -/
def ofName? (s : String) : Option Kind :=
  all.find? fun k => k.name = s

@[simp] theorem ofName?_name (k : Kind) : ofName? k.name = some k := by
  cases k <;> rfl

theorem name_of_ofName? {s : String} {k : Kind} (h : ofName? s = some k) : k.name = s := by
  simpa using List.find?_some h

def toJson (k : Kind) : Json :=
  .string k.name

def ofJson? : Json → Option Kind
  | .string s => ofName? s
  | _ => none

@[simp] theorem ofJson?_toJson (k : Kind) : ofJson? k.toJson = some k := by
  simp [toJson, ofJson?]

end Kind

/-- The kind that an object gives under `type`. -/
def Json.kind? (members : List (String × Json)) : Option Kind :=
  (members.lookup "type").bind Kind.ofJson?

end Polish
