import Polish.Source

/-!
Source trees in JSON.  A node is an object with its kind and the fields of
that kind.  Reading looks at those fields only: a member that belongs to
another kind of node, or to none, is passed over whatever its value.
-/

namespace Polish

namespace Source

mutual

def toJson : Source → Json
  | .program body => .object [("type", Kind.program.toJson), ("body", .array (toJsonList body))]
  | .number value => .object [("type", Kind.numberLiteral.toJson), ("value", .string value)]
  | .string value => .object [("type", Kind.stringLiteral.toJson), ("value", .string value)]
  | .call name params =>
    .object [("type", Kind.callExpression.toJson), ("name", .string name),
      ("params", .array (toJsonList params))]

def toJsonList : List Source → List Json
  | [] => []
  | t :: ts => t.toJson :: toJsonList ts

end

mutual

def ofJson? (j : Json) : Option Source :=
  match j with
  | .object members =>
    match Json.kind? members with
    | some .program =>
      match _h : Json.items? members "body" with
      | some items => (ofJsonList? items).map .program
      | none => none
    | some .numberLiteral => (Json.text? members "value").map .number
    | some .stringLiteral => (Json.text? members "value").map .string
    | some .callExpression =>
      match Json.text? members "name", _h : Json.items? members "params" with
      | some name, some items => (ofJsonList? items).map (.call name)
      | _, _ => none
    | _ => none
  | _ => none
termination_by sizeOf j
decreasing_by
  all_goals
    have := Json.sizeOf_items?_lt _h
    simp only [Json.object.sizeOf_spec]
    omega

def ofJsonList? (js : List Json) : Option (List Source) :=
  match js with
  | [] => some []
  | j :: rest => do
    let t ← ofJson? j
    let ts ← ofJsonList? rest
    return t :: ts
termination_by sizeOf js

end

end Source

end Polish
