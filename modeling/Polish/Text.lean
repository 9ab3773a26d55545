/-!
Characters and punctuation: what separates lexemes, and the forms that output
text is built from.  Every rule on punctuation is stated here once.

Blank characters are those with the property White_Space of the Unicode
character database.  Core's `Char.isWhitespace` knows four of them only, so the
ranges are listed here in full.
-/

namespace Polish.Text

/-- The ranges of White_Space, both ends included, in ascending order. -/
def blankRanges : List (Nat × Nat) :=
  [(0x0009, 0x000D), (0x0020, 0x0020), (0x0085, 0x0085), (0x00A0, 0x00A0), (0x1680, 0x1680),
    (0x2000, 0x200A), (0x2028, 0x2029), (0x202F, 0x202F), (0x205F, 0x205F), (0x3000, 0x3000)]

def isBlank (c : Char) : Bool :=
  blankRanges.any fun r => r.1 ≤ c.toNat && c.toNat ≤ r.2

/-- There are twenty-five blank characters. -/
example : (blankRanges.map fun r => r.2 + 1 - r.1).sum = 25 := by decide

/-- The quote around a string, in what is read and in what is written. -/
def quote : Char := '"'

def lines (items : List String) : String :=
  String.intercalate "\n" items

/-- An expression that stands as a statement ends in a semicolon. -/
def terminated (expression : String) : String :=
  expression ++ ";"

def application (callee : String) (arguments : List String) : String :=
  callee ++ "(" ++ String.intercalate ", " arguments ++ ")"

/-- A string between quotes, with nothing in it escaped. -/
def quoted (content : String) : String :=
  quote.toString ++ content ++ quote.toString

end Polish.Text
