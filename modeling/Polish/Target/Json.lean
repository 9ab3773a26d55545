import Polish.Target

/-!
Target trees in JSON.  The callee of a call is written as an identifier node
and is read back only from one.  As with source trees, reading looks at the
fields of a node's own kind and passes over all other members.
-/

namespace Polish

namespace Identifier

def toJson (i : Identifier) : Json :=
  .object [("type", Kind.identifier.toJson), ("name", .string i.name)]

def ofJson? : Json → Option Identifier
  | .object members =>
    match Json.kind? members with
    | some .identifier => (Json.text? members "name").map Identifier.mk
    | _ => none
  | _ => none

end Identifier

namespace Target

mutual

def toJson : Target → Json
  | .program body => .object [("type", Kind.program.toJson), ("body", .array (toJsonList body))]
  | .statement expression =>
    .object [("type", Kind.expressionStatement.toJson), ("expression", expression.toJson)]
  | .call callee arguments =>
    .object [("type", Kind.callExpression.toJson), ("callee", callee.toJson),
      ("arguments", .array (toJsonList arguments))]
  | .identifier name => .object [("type", Kind.identifier.toJson), ("name", .string name)]
  | .number value => .object [("type", Kind.numberLiteral.toJson), ("value", .string value)]
  | .string value => .object [("type", Kind.stringLiteral.toJson), ("value", .string value)]

def toJsonList : List Target → List Json
  | [] => []
  | t :: ts => t.toJson :: toJsonList ts

end

mutual

def ofJson? (j : Json) : Option Target :=
  match j with
  | .object members =>
    match Json.kind? members with
    | some .program =>
      match _h : Json.items? members "body" with
      | some items => (ofJsonList? items).map .program
      | none => none
    | some .expressionStatement =>
      match _h : members.lookup "expression" with
      | some inner => (ofJson? inner).map .statement
      | none => none
    | some .callExpression =>
      match (members.lookup "callee").bind Identifier.ofJson?,
          _h : Json.items? members "arguments" with
      | some callee, some items => (ofJsonList? items).map (.call callee)
      | _, _ => none
    | some .identifier => (Json.text? members "name").map .identifier
    | some .numberLiteral => (Json.text? members "value").map .number
    | some .stringLiteral => (Json.text? members "value").map .string
    | none => none
  | _ => none
termination_by sizeOf j
decreasing_by
  · have := Json.sizeOf_items?_lt _h
    simp only [Json.object.sizeOf_spec]
    omega
  · have := Json.sizeOf_lookup_lt _h
    simp only [Json.object.sizeOf_spec]
    omega
  · have := Json.sizeOf_items?_lt _h
    simp only [Json.object.sizeOf_spec]
    omega

def ofJsonList? (js : List Json) : Option (List Target) :=
  match js with
  | [] => some []
  | j :: rest => do
    let t ← ofJson? j
    let ts ← ofJsonList? rest
    return t :: ts
termination_by sizeOf js

end

end Target

end Polish
