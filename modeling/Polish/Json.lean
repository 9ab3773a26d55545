/-!
JSON values and their compact text.  The members of an object keep their
order, since two texts are told apart by it; looking a key up takes the first
member that has it.

The text has no blanks.  In a string the quote, the backslash and the control
characters below U+0020 are escaped, the latter by a letter where there is one
and by four lower-case hexadecimal digits otherwise; every other character
stands for itself.
-/

namespace Polish

/-- A JSON value.  A number is its digits, read as an integer, and how many of
them stand behind the point. -/
inductive Json
  | null
  | bool (value : Bool)
  | number (digits : Int) (places : Nat)
  | string (value : String)
  | array (items : List Json)
  | object (members : List (String × Json))
  deriving Inhabited, Repr

namespace Json

def ofNat (n : Nat) : Json :=
  .number n 0

def ofOption {α : Type} (f : α → Json) : Option α → Json
  | none => .null
  | some a => f a

def escape (c : Char) : String :=
  if c = '"' then "\\\""
  else if c = '\\' then "\\\\"
  else if c = '\x08' then "\\b"
  else if c = '\t' then "\\t"
  else if c = '\n' then "\\n"
  else if c = '\x0c' then "\\f"
  else if c = '\r' then "\\r"
  else if c.toNat < 0x20 then
    "\\u00" ++ String.ofList [Nat.digitChar (c.toNat / 16), Nat.digitChar (c.toNat % 16)]
  else c.toString

def quoted (s : String) : String :=
  "\"" ++ String.join (s.toList.map escape) ++ "\""

/-- A number with the given digits, some of them behind the point. -/
def decimal (digits : Int) (places : Nat) : String :=
  let all := (toString digits.natAbs).toList
  let padded := List.replicate (places + 1 - all.length) '0' ++ all
  let whole := String.ofList (padded.take (padded.length - places))
  let sign := if digits < 0 then "-" else ""
  if places = 0 then sign ++ whole
  else sign ++ whole ++ "." ++ String.ofList (padded.drop (padded.length - places))

mutual

def render : Json → String
  | .null => "null"
  | .bool true => "true"
  | .bool false => "false"
  | .number digits places => decimal digits places
  | .string s => quoted s
  | .array items => "[" ++ String.intercalate "," (renderItems items) ++ "]"
  | .object members => "\x7b" ++ String.intercalate "," (renderMembers members) ++ "\x7d"

def renderItems : List Json → List String
  | [] => []
  | j :: js => j.render :: renderItems js

def renderMembers : List (String × Json) → List String
  | [] => []
  | (key, j) :: ms => (quoted key ++ ":" ++ j.render) :: renderMembers ms

end

/-! ### Fields of an object

Each of these asks for a member with a key and a value of one type, and gives
nothing if there is no such member or the value has another type. -/

def text? (members : List (String × Json)) (key : String) : Option String :=
  match members.lookup key with
  | some (.string s) => some s
  | _ => none

def items? (members : List (String × Json)) (key : String) : Option (List Json) :=
  match members.lookup key with
  | some (.array items) => some items
  | _ => none

/-- A key that is absent, or there with the value null. -/
def isAbsent (members : List (String × Json)) (key : String) : Bool :=
  match members.lookup key with
  | none => true
  | some .null => true
  | some _ => false

theorem sizeOf_lookup_lt {members : List (String × Json)} {key : String} {j : Json}
    (h : members.lookup key = some j) : sizeOf j < sizeOf members := by
  induction members with
  | nil => simp at h
  | cons m ms ih =>
    obtain ⟨k, v⟩ := m
    rw [List.lookup_cons] at h
    simp only [List.cons.sizeOf_spec, Prod.mk.sizeOf_spec]
    split at h
    · cases h
      omega
    · have := ih h
      omega

theorem sizeOf_items?_lt {members : List (String × Json)} {key : String} {items : List Json}
    (h : items? members key = some items) : sizeOf items < sizeOf members := by
  unfold items? at h
  split at h
  · next found =>
    cases h
    have := sizeOf_lookup_lt found
    simp only [array.sizeOf_spec] at this
    omega
  · cases h

end Json

end Polish
