import Polish.Total

/-!
A cursor over a text.  It keeps its place twice: `byte` is where the next
character is stored, and `position` is how many characters have been passed.
The first finds the character without walking the text again, the second is
what a reader is told.  The two drift apart as soon as a character takes more
than one byte, so no operation computes one of them from the other.

A cursor looks one character ahead and never moves back.  What is left of the
text, counted in bytes by `remaining`, gets smaller with every character
passed, and this is the measure by which every loop over a cursor ends.
-/

namespace Polish

/-- A place in a text, as a byte offset and as a number of characters. -/
structure Cursor where
  source : String
  byte : Nat
  position : Nat
  deriving DecidableEq, Repr

namespace Cursor

def ofString (source : String) : Cursor where
  source := source
  byte := 0
  position := 0

def peek (c : Cursor) : Option Char :=
  String.Pos.Raw.get? c.source ⟨c.byte⟩

/-- The cursor one character further; at the end it stays where it is. -/
def next (c : Cursor) : Cursor :=
  match c.peek with
  | none => c
  | some ch => { c with byte := c.byte + ch.utf8Size, position := c.position + 1 }

/-- The number of bytes not yet passed. -/
def remaining (c : Cursor) : Nat :=
  c.source.utf8ByteSize - c.byte

theorem utf8ByteSize_eq_total (s : String) :
    s.utf8ByteSize = total Char.utf8Size s.toList := by
  have hsize : ∀ cs : List Char, cs.utf8Encode.size = total Char.utf8Size cs := by
    intro cs
    induction cs with
    | nil => simp
    | cons c cs ih =>
      rw [List.utf8Encode_cons, ByteArray.size_append, ih, List.utf8Encode_singleton]
      simp
  rw [← String.size_toByteArray, ← String.utf8Encode_toList, hsize]

theorem byte_add_le_of_utf8GetAux? {cs : List Char} {i p : String.Pos.Raw} {ch : Char}
    (h : String.Pos.Raw.utf8GetAux? cs i p = some ch) :
    p.byteIdx + ch.utf8Size ≤ i.byteIdx + total Char.utf8Size cs := by
  induction cs generalizing i with
  | nil => cases h
  | cons c cs ih =>
    rw [total_cons]
    change (if i = p then some c else String.Pos.Raw.utf8GetAux? cs (i + c) p) = some ch at h
    split at h
    · next hip =>
      cases h
      rw [hip]
      omega
    · have := ih h
      rw [String.Pos.Raw.byteIdx_add_char] at this
      omega

theorem byte_add_le_of_peek {c : Cursor} {ch : Char} (h : c.peek = some ch) :
    c.byte + ch.utf8Size ≤ c.source.utf8ByteSize := by
  rw [utf8ByteSize_eq_total]
  simpa [Nat.zero_add] using byte_add_le_of_utf8GetAux? h

theorem remaining_next_lt {c : Cursor} {ch : Char} (h : c.peek = some ch) :
    c.next.remaining < c.remaining := by
  have hle := byte_add_le_of_peek h
  have hpos := Char.utf8Size_pos ch
  simp only [next, h, remaining]
  omega

theorem remaining_next_le (c : Cursor) : c.next.remaining ≤ c.remaining := by
  cases h : c.peek with
  | none => simp [next, h]
  | some ch => exact Nat.le_of_lt (remaining_next_lt h)

def skipWhile (p : Char → Bool) (c : Cursor) : Cursor :=
  match _h : c.peek with
  | none => c
  | some ch => if p ch then skipWhile p c.next else c
termination_by c.remaining
decreasing_by exact remaining_next_lt _h

/-- The longest run of a class at the cursor, with the cursor after it. -/
def takeWhile (p : Char → Bool) (c : Cursor) : String × Cursor :=
  let stop := c.skipWhile p
  (String.Pos.Raw.extract c.source ⟨c.byte⟩ ⟨stop.byte⟩, stop)

theorem remaining_skipWhile_le (p : Char → Bool) (c : Cursor) :
    (c.skipWhile p).remaining ≤ c.remaining := by
  fun_induction skipWhile p c with
  | case1 => exact Nat.le_refl _
  | case2 c ch h hp ih => exact Nat.le_trans ih (remaining_next_le c)
  | case3 => exact Nat.le_refl _

theorem remaining_skipWhile_lt {p : Char → Bool} {c : Cursor} {ch : Char} (h : c.peek = some ch)
    (hp : p ch = true) : (c.skipWhile p).remaining < c.remaining := by
  have hstep : c.skipWhile p = c.next.skipWhile p := by
    rw [skipWhile]
    split
    · simp_all
    · simp_all
  rw [hstep]
  exact Nat.lt_of_le_of_lt (remaining_skipWhile_le p c.next) (remaining_next_lt h)

/-! ### Scripts

A script is a list of readings made with one cursor, one after another. -/

inductive Reading
  | peek
  | advance
  | takeWhile (p : Char → Bool)

inductive Reply
  | char (c : Option Char)
  | text (s : String)
  deriving DecidableEq, Repr

def read (c : Cursor) : Reading → Reply × Cursor
  | .peek => (.char c.peek, c)
  | .advance => (.char c.peek, c.next)
  | .takeWhile p => (.text (c.takeWhile p).1, (c.takeWhile p).2)

/-- Make readings in order, keeping each reply and the cursor after it. -/
def readAll (c : Cursor) : List Reading → List (Reply × Cursor)
  | [] => []
  | r :: rs => c.read r :: (c.read r).2.readAll rs

end Cursor

end Polish
