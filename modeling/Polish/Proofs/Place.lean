import Mathlib.Data.String.Basic
import Polish.Cursor

/-!
Where a cursor stands.  A cursor keeps a byte offset and a number of
characters, and neither says by itself what has been passed and what is still
to come.  `Between past rest` says both at once: the text is `past` followed by
`rest`, and the two counters are those of `past`.  Every operation moves the
boundary to the right, and what it gives back is told by `rest` alone, so a
proof about reading can speak of lists of characters and forget the bytes.
-/

namespace Polish

namespace Cursor

/-- The cursor stands after the characters `past` and before `rest`. -/
structure Between (c : Cursor) (past rest : List Char) : Prop where
  source : c.source = String.ofList (past ++ rest)
  byte : c.byte = String.utf8Len past
  position : c.position = past.length

theorem between_ofString (s : String) : (ofString s).Between [] s.toList where
  source := by simp [ofString]
  byte := rfl
  position := rfl

variable {c : Cursor} {past rest : List Char} {ch : Char}

theorem Between.peek_eq (h : c.Between past rest) : c.peek = rest.head? := by
  rw [peek, h.source, h.byte]
  exact String.get?_of_valid past rest

theorem Between.peek_cons (h : c.Between past (ch :: rest)) : c.peek = some ch := h.peek_eq

theorem Between.next (h : c.Between past (ch :: rest)) :
    c.next.Between (past ++ [ch]) rest := by
  have hnext : c.next = { c with byte := c.byte + ch.utf8Size, position := c.position + 1 } := by
    rw [Cursor.next, h.peek_cons]
  rw [hnext]
  constructor
  · simp [h.source]
  · simp [h.byte]
  · simp [h.position]

theorem Between.skipWhile (p : Char → Bool) (h : c.Between past rest) :
    (c.skipWhile p).Between (past ++ rest.takeWhile p) (rest.dropWhile p) := by
  induction rest generalizing c past with
  | nil =>
      have hstop : c.skipWhile p = c := by
        rw [Cursor.skipWhile]
        split
        · rfl
        · next hpeek => simp [h.peek_eq] at hpeek
      rw [hstop]
      simpa using h
  | cons ch rest ih =>
      have hstep : c.skipWhile p = if p ch then c.next.skipWhile p else c := by
        rw [Cursor.skipWhile]
        split
        · next hpeek => simp [h.peek_eq] at hpeek
        · next hpeek =>
          rw [h.peek_cons, Option.some.injEq] at hpeek
          rw [hpeek]
      rw [hstep]
      cases hp : p ch with
      | true => simpa [hp] using ih h.next
      | false => simpa [hp] using h

theorem Between.takeWhile_text (p : Char → Bool) (h : c.Between past rest) :
    (c.takeWhile p).1 = String.ofList (rest.takeWhile p) := by
  have hstop := (h.skipWhile p).byte
  rw [String.utf8Len_append] at hstop
  have hsplit : past ++ rest = past ++ rest.takeWhile p ++ rest.dropWhile p := by
    rw [List.append_assoc, List.takeWhile_append_dropWhile]
  simp only [takeWhile, h.source, h.byte, hstop, hsplit]
  exact String.extract_of_valid _ _ _

theorem Between.takeWhile_cursor (p : Char → Bool) (h : c.Between past rest) :
    (c.takeWhile p).2.Between (past ++ rest.takeWhile p) (rest.dropWhile p) :=
  h.skipWhile p

end Cursor

end Polish
