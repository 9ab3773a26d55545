import Polish.Untyped

/-!
Untyped nodes in JSON.  Only `type` has to be there.  Every other field may be
absent or null, which means the same; when it is there it has to have the
right type, even in a node of a kind that makes no use of it.
-/

namespace Polish

namespace Untyped

def toJsonText (field : Field) : Option String → List (String × Json)
  | none => []
  | some s => [(field.label, .string s)]

mutual

def toJson : Untyped → Json
  | ⟨type, value, name, params, body, expression, callee, arguments⟩ =>
    .object <| ("type", .string type) ::
      (toJsonText .value value ++ toJsonText .name name ++ toJsonNodes .params params ++
        toJsonNodes .body body ++ toJsonNode .expression expression ++
        toJsonNode .callee callee ++ toJsonNodes .arguments arguments)

def toJsonNode (field : Field) : Option Untyped → List (String × Json)
  | none => []
  | some n => [(field.label, n.toJson)]

def toJsonNodes (field : Field) : Option (List Untyped) → List (String × Json)
  | none => []
  | some ns => [(field.label, .array (toJsonList ns))]

def toJsonList : List Untyped → List Json
  | [] => []
  | n :: ns => n.toJson :: toJsonList ns

end

/-! ### Reading

A reader of an optional field gives nothing if the field is there with a value
of another type, and the field itself, which may be absent, otherwise. -/

def textField? (members : List (String × Json)) (field : Field) : Option (Option String) :=
  if Json.isAbsent members field.label then some none
  else (Json.text? members field.label).map some

mutual

def ofJson? (j : Json) : Option Untyped :=
  match j with
  | .object members => do
    let type ← Json.text? members "type"
    let value ← textField? members .value
    let name ← textField? members .name
    let params ← nodesField? members .params
    let body ← nodesField? members .body
    let expression ← nodeField? members .expression
    let callee ← nodeField? members .callee
    let arguments ← nodesField? members .arguments
    return ⟨type, value, name, params, body, expression, callee, arguments⟩
  | _ => none
termination_by sizeOf j

def nodeField? (members : List (String × Json)) (field : Field) : Option (Option Untyped) :=
  match _h : members.lookup field.label with
  | none => some none
  | some .null => some none
  | some inner => (ofJson? inner).map some
termination_by sizeOf members
decreasing_by exact Json.sizeOf_lookup_lt _h

def nodesField? (members : List (String × Json)) (field : Field) :
    Option (Option (List Untyped)) :=
  if Json.isAbsent members field.label then some none
  else
    match _h : Json.items? members field.label with
    | some items => (ofJsonList? items).map some
    | none => none
termination_by sizeOf members
decreasing_by exact Json.sizeOf_items?_lt _h

def ofJsonList? (js : List Json) : Option (List Untyped) :=
  match js with
  | [] => some []
  | j :: rest => do
    let n ← ofJson? j
    let ns ← ofJsonList? rest
    return n :: ns
termination_by sizeOf js

end

end Untyped

end Polish
