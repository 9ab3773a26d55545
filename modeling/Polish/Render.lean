import Polish.Text
import Polish.Untyped

/-!
The text of trees.  It is put together from the texts of the parts of a tree:
statements on lines of their own, arguments between commas, strings between
quotes and nothing escaped.

Target trees and untyped nodes are written in the same forms and may fail with
the same errors.  An untyped node is written by the rule for the kind it claims
to be, and what that rule needs has to be there: the first node, in the order of
writing, that has an unknown kind or lacks a field is reported.  Of a call both
fields are looked for before either is written.
-/

namespace Polish

inductive RenderError
  | unknownKind (type : String)
  | missingField (type : String) (field : Untyped.Field)
  deriving DecidableEq, Repr

def RenderError.message : RenderError → String
  | .unknownKind type => "unknown node kind '" ++ type ++ "'"
  | .missingField type field =>
    type ++ " node is missing its '" ++ field.label ++ "' field"

namespace Target

mutual

def render : Target → Except RenderError String
  | .program body => (renderList body).map Text.lines
  | .statement expression => expression.render.map Text.terminated
  | .call callee arguments => (renderList arguments).map (Text.application callee.name)
  | .identifier name => .ok name
  | .number value => .ok value
  | .string value => .ok (Text.quoted value)

def renderList : List Target → Except RenderError (List String)
  | [] => .ok []
  | t :: ts => do
    let first ← t.render
    let others ← renderList ts
    return first :: others

end

end Target

namespace Untyped

def need {α : Type} (type : String) (field : Field) : Option α → Except RenderError α
  | none => .error (.missingField type field)
  | some a => .ok a

mutual

/-- The text of a node, or the first defect in the order of writing. -/
def render : Untyped → Except RenderError String
  | ⟨type, value, name, _, body, expression, callee, arguments⟩ =>
    match Kind.ofName? type with
    | none => .error (.unknownKind type)
    | some .program =>
      match body with
      | none => .error (.missingField type .body)
      | some items => (renderList items).map Text.lines
    | some .expressionStatement =>
      match expression with
      | none => .error (.missingField type .expression)
      | some inner => inner.render.map Text.terminated
    | some .callExpression =>
      match callee, arguments with
      | none, _ => .error (.missingField type .callee)
      | some _, none => .error (.missingField type .arguments)
      | some f, some args => do
        let callee ← f.render
        let arguments ← renderList args
        return Text.application callee arguments
    | some .identifier => need type .name name
    | some .numberLiteral => need type .value value
    | some .stringLiteral => (need type .value value).map Text.quoted

def renderList : List Untyped → Except RenderError (List String)
  | [] => .ok []
  | n :: ns => do
    let first ← n.render
    let others ← renderList ns
    return first :: others

end

end Untyped

end Polish
