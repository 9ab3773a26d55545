import Polish.Cursor
import Polish.Text
import Polish.Token

/-!
From a text to its tokens.  The character at the cursor decides alone what is
read next: a bracket, a blank to skip, a run of digits, a quoted string, or a
run of letters.  Runs are as long as they can be, so two numbers or two names
in a row need a blank between them, while a number and a name do not.

Digits and letters are the ASCII ones; blanks are those of Unicode; a quoted
string takes any character but the quote, and has no escapes.

`scanAt` is one step of the loop, and `remaining_scanAt_lt` is why the loop
ends: a step that succeeds leaves less of the text.
-/

namespace Polish

/-- Why a text has no tokens.  Positions count characters from one; for a
string without end it is the position of the quote that opens it. -/
inductive LexError
  | unexpectedCharacter (character : Char) (position : Nat)
  | unterminatedString (position : Nat)
  deriving DecidableEq, Repr

def LexError.message : LexError → String
  | .unexpectedCharacter c p =>
    "unexpected character '" ++ c.toString ++ "' at position " ++ toString p
  | .unterminatedString p =>
    "unterminated string literal starting at position " ++ toString p

namespace Token

def scanString (c : Cursor) : Except LexError (Option Token × Cursor) :=
  let content := c.next.takeWhile (· != Text.quote)
  if content.2.peek = some Text.quote then
    .ok (some ⟨.string, content.1⟩, content.2.next)
  else
    .error (.unterminatedString (c.position + 1))

def scanRun (kind : TokenKind) (p : Char → Bool) (c : Cursor) : Option Token × Cursor :=
  (some ⟨kind, (c.takeWhile p).1⟩, (c.takeWhile p).2)

/-- Read one token at a cursor whose next character is `ch`, or skip that
character when it is blank. -/
def scanAt (ch : Char) (c : Cursor) : Except LexError (Option Token × Cursor) :=
  if ch = '(' then .ok (some ⟨.opening, ch.toString⟩, c.next)
  else if ch = ')' then .ok (some ⟨.closing, ch.toString⟩, c.next)
  else if Text.isBlank ch then .ok (none, c.next)
  else if ch.isDigit then .ok (scanRun .number Char.isDigit c)
  else if ch = Text.quote then scanString c
  else if ch.isAlpha then .ok (scanRun .name Char.isAlpha c)
  else .error (.unexpectedCharacter ch (c.position + 1))

theorem remaining_scanString_lt {c c' : Cursor} {ch : Char} {t : Option Token}
    (hpeek : c.peek = some ch) (h : scanString c = .ok (t, c')) :
    c'.remaining < c.remaining := by
  simp only [scanString] at h
  split at h
  · cases h
    have hskip := Cursor.remaining_skipWhile_le (· != Text.quote) c.next
    exact Nat.lt_of_le_of_lt (Nat.le_trans (Cursor.remaining_next_le _) hskip)
      (Cursor.remaining_next_lt hpeek)
  · cases h

theorem remaining_scanAt_lt {c c' : Cursor} {ch : Char} {t : Option Token}
    (hpeek : c.peek = some ch) (h : scanAt ch c = .ok (t, c')) :
    c'.remaining < c.remaining := by
  have hnext := Cursor.remaining_next_lt hpeek
  unfold scanAt at h
  split at h
  · cases h; exact hnext
  split at h
  · cases h; exact hnext
  split at h
  · cases h; exact hnext
  split at h
  · next hdigit => cases h; exact Cursor.remaining_skipWhile_lt hpeek hdigit
  split at h
  · exact remaining_scanString_lt hpeek h
  split at h
  · next halpha => cases h; exact Cursor.remaining_skipWhile_lt hpeek halpha
  · cases h

def scanAll (c : Cursor) (done : Array Token) : Except LexError (Array Token) :=
  match _hpeek : c.peek with
  | none => .ok done
  | some ch =>
    match _hscan : scanAt ch c with
    | .error e => .error e
    | .ok (none, rest) => scanAll rest done
    | .ok (some t, rest) => scanAll rest (done.push t)
termination_by c.remaining
decreasing_by all_goals exact remaining_scanAt_lt _hpeek _hscan

end Token

/-- The tokens of a text in order, or its first lexical error. -/
def tokenize (source : String) : Except LexError (List Token) :=
  (Token.scanAll (Cursor.ofString source) #[]).map Array.toList

end Polish
