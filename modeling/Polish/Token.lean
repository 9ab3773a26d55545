import Polish.Json

/-!
Tokens: what a text is made of once blanks are gone.  A token keeps the text
it was read from, for a string without the quotes around it, and later stages
look at the kind alone to find structure.  In particular a bracket is told by
its kind, whatever its text.

In JSON a token is an object with the label of the kind and the text.  Members
under other keys are passed over.
-/

namespace Polish

inductive TokenKind
  | opening
  | closing
  | number
  | string
  | name
  deriving DecidableEq, Repr

def TokenKind.label : TokenKind → String
  | .opening => "paren-open"
  | .closing => "paren-close"
  | .number => "number"
  | .string => "string"
  | .name => "name"

def TokenKind.ofLabel? : String → Option TokenKind
  | "paren-open" => some .opening
  | "paren-close" => some .closing
  | "number" => some .number
  | "string" => some .string
  | "name" => some .name
  | _ => none

structure Token where
  kind : TokenKind
  text : String
  deriving DecidableEq, Repr

namespace Token

/-- A token as messages show it: the kind, then the text between apostrophes. -/
def describe (t : Token) : String :=
  t.kind.label ++ " '" ++ t.text ++ "'"

def toJson (t : Token) : Json :=
  .object [("kind", .string t.kind.label), ("text", .string t.text)]

def ofJson? : Json → Option Token
  | .object members => do
    let label ← Json.text? members "kind"
    let kind ← TokenKind.ofLabel? label
    let text ← Json.text? members "text"
    return ⟨kind, text⟩
  | _ => none

/-- Tokens from an array; one item that is no token spoils them all. -/
def listOfJson? : Json → Option (List Token)
  | .array items => items.mapM ofJson?
  | _ => none

end Token

end Polish
