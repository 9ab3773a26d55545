import Mathlib.Data.List.TakeWhile
import Mathlib.Logic.Function.Iterate
import Polish.Proofs.Place

/-!
Scripts of readings.

A cursor counts bytes and characters side by side, and every operation has to
move both by the right amount.  `Sound` is the relation between the two, said
by the text alone: as many bytes are passed as the characters passed take up.
It puts the cursor on a boundary between characters, so that the text can be
cut there.

`Answers` says what each reading gives back and where it leaves the cursor, and
`Faithful` says it of every reading of a script, together with what all of them
have passed up to there.  The step is proved with `Between`, which keeps the
characters on both sides of the cursor, and the run follows by induction.
-/

namespace Polish

namespace Cursor

/-- A cursor over the text `s` whose two counters go together. -/
structure Sound (s : String) (c : Cursor) : Prop where
  source : c.source = s
  /-- The characters passed take up the bytes passed. -/
  byte : c.byte = (String.ofList (s.toList.take c.position)).utf8ByteSize
  /-- The cursor stands between two characters, or at one of the ends. -/
  boundary : String.Pos.Raw.IsValid s ⟨c.byte⟩
  byte_le : c.byte ≤ s.utf8ByteSize
  position_le : c.position ≤ s.length

/-- Of the beginnings of `rest` that are of a class, `run` is the longest. -/
structure IsLongestRun (p : Char → Bool) (rest run : List Char) : Prop where
  isPrefix : run <+: rest
  all : ∀ ch ∈ run, p ch = true
  longest : ∀ other, other <+: rest → (∀ ch ∈ other, p ch = true) → other <+: run

/-- What a reading at the cursor `c` gives back and where it leaves the cursor.
A run is as many steps to the next character as it has characters, and between
any two of these steps the cursor is sound. -/
def Answers (s : String) (c : Cursor) : Reading → Reply → Cursor → Prop
  | .peek, reply, c' =>
    reply = .char s.toList[c.position]? ∧ (reply = .char none ↔ c.position = s.length) ∧ c' = c
  | .advance, reply, c' =>
    reply = .char s.toList[c.position]? ∧
      if c.position = s.length then c' = c else c'.position = c.position + 1
  | .takeWhile p, reply, c' =>
    ∃ run, reply = .text (String.ofList run) ∧
      IsLongestRun p (s.toList.drop c.position) run ∧
      (∀ n ≤ run.length, (next^[n] c).Sound s) ∧ c' = next^[run.length] c

/-- The characters that a reading passes, by what it gives back. -/
def passed : Reading → Reply → List Char
  | .advance, .char ch => ch.toList
  | .takeWhile _, .text run => run.toList
  | _, _ => []

/-- Every reading of a script is answered and leaves a sound cursor, no further
back than before.  All that was passed up to there, `past` and what the readings
gave back, is the beginning of the text that the cursor has behind it. -/
inductive Faithful (s : String) :
    List Char → Cursor → List Reading → List (Reply × Cursor) → Prop
  | nil {past : List Char} {c : Cursor} : Faithful s past c [] []
  | cons {past : List Char} {c c' : Cursor} {r : Reading} {reply : Reply} {rs : List Reading}
      {out : List (Reply × Cursor)} (hanswer : Answers s c r reply c') (hsound : c'.Sound s)
      (hposition : c.position ≤ c'.position) (hbyte : c.byte ≤ c'.byte)
      (hpast : past ++ passed r reply = s.toList.take c'.position)
      (h : Faithful s (past ++ passed r reply) c' rs out) :
      Faithful s past c (r :: rs) ((reply, c') :: out)

namespace Between

variable {c c' : Cursor} {past past' rest rest' run : List Char}

theorem source_eq (h : c.Between past rest) (h' : c'.Between past' rest')
    (hsame : past ++ rest = past' ++ rest') : c'.source = c.source := by
  rw [h.source, h'.source, hsame]

theorem toList_source (h : c.Between past rest) : c.source.toList = past ++ rest := by
  rw [h.source, String.toList_ofList]

theorem length_source (h : c.Between past rest) :
    c.source.length = c.position + rest.length := by
  rw [← String.length_toList, h.toList_source, List.length_append, h.position]

theorem take_position (h : c.Between past rest) : c.source.toList.take c.position = past := by
  rw [h.toList_source, h.position, List.take_left]

theorem drop_position (h : c.Between past rest) : c.source.toList.drop c.position = rest := by
  rw [h.toList_source, h.position, List.drop_left]

theorem getElem?_position (h : c.Between past rest) :
    c.source.toList[c.position]? = rest.head? := by
  rw [← List.head?_drop, h.drop_position]

theorem sound (h : c.Between past rest) : c.Sound c.source := by
  have hbyte : c.byte = (String.ofList (c.source.toList.take c.position)).utf8ByteSize := by
    rw [h.take_position, h.byte, String.utf8ByteSize_ofList]
  have hboundary : String.Pos.Raw.IsValid c.source ⟨c.byte⟩ :=
    String.Pos.Raw.isValid_iff_exists_take_toList.mpr ⟨c.position, hbyte⟩
  refine ⟨rfl, hbyte, hboundary, hboundary.le_rawEndPos, ?_⟩
  rw [h.length_source]
  omega

theorem cursor_eq (h : c.Between past rest) (h' : c'.Between past rest) : c = c' := by
  obtain ⟨source, byte, position⟩ := c
  obtain ⟨source', byte', position'⟩ := c'
  obtain rfl : source = source' := h.source.trans h'.source.symm
  obtain rfl : byte = byte' := h.byte.trans h'.byte.symm
  obtain rfl : position = position' := h.position.trans h'.position.symm
  rfl

theorem iterate_next (h : c.Between past (run ++ rest)) :
    (Cursor.next^[run.length] c).Between (past ++ run) rest := by
  induction run generalizing c past with
  | nil => simpa using h
  | cons ch run ih =>
      rw [List.length_cons, Function.iterate_succ_apply, List.append_cons]
      exact ih h.next

theorem sound_iterate_next {n : Nat} (h : c.Between past rest) (hn : n ≤ rest.length) :
    (Cursor.next^[n] c).Sound c.source := by
  rw [← List.take_append_drop n rest] at h
  have hnext := h.iterate_next
  have hsource := h.source_eq hnext (List.append_assoc ..).symm
  have hsound := hnext.sound
  rwa [hsource, List.length_take_of_le hn] at hsound

theorem next_nil (h : c.Between past []) : c.next = c := by
  rw [Cursor.next, h.peek_eq, List.head?_nil]

theorem read (r : Reading) (h : c.Between past rest) :
    ∃ rest', rest = passed r (c.read r).1 ++ rest' ∧
      (c.read r).2.Between (past ++ passed r (c.read r).1) rest' := by
  cases r with
  | peek => exact ⟨rest, rfl, by simpa [Cursor.read, passed] using h⟩
  | advance =>
      simp only [Cursor.read, h.peek_eq]
      cases rest with
      | nil =>
          rw [h.next_nil]
          exact ⟨[], rfl, by simpa [passed] using h⟩
      | cons ch rest => exact ⟨rest, rfl, h.next⟩
  | takeWhile p =>
      simp only [Cursor.read, h.takeWhile_text, passed, String.toList_ofList]
      exact ⟨rest.dropWhile p, List.takeWhile_append_dropWhile.symm, h.takeWhile_cursor p⟩

theorem answers_peek (h : c.Between past rest) : Answers c.source c .peek (.char c.peek) c := by
  have hpeek : c.peek = c.source.toList[c.position]? := by rw [h.peek_eq, h.getElem?_position]
  refine ⟨by rw [hpeek], ?_, rfl⟩
  rw [hpeek, Reply.char.injEq, List.getElem?_eq_none_iff, String.length_toList]
  have := h.sound.position_le
  omega

theorem answers_advance (h : c.Between past rest) :
    Answers c.source c .advance (.char c.peek) c.next := by
  refine ⟨by rw [h.peek_eq, h.getElem?_position], ?_⟩
  have hlength := h.length_source
  cases rest with
  | nil =>
      rw [if_pos (by simpa using hlength.symm)]
      exact h.next_nil
  | cons ch rest =>
      rw [List.length_cons] at hlength
      rw [if_neg (by omega), h.next.position, h.position, List.length_append]
      rfl

end Between

theorem isLongestRun_takeWhile (p : Char → Bool) (rest : List Char) :
    IsLongestRun p rest (rest.takeWhile p) where
  isPrefix := List.takeWhile_prefix p
  all _ hch := List.mem_takeWhile_imp hch
  longest other hother hall := by
    obtain ⟨tail, rfl⟩ := hother
    rw [List.takeWhile_append_of_pos hall]
    exact List.prefix_append ..

namespace Between

variable {c : Cursor} {past rest : List Char}

theorem answers_takeWhile (p : Char → Bool) (h : c.Between past rest) :
    Answers c.source c (.takeWhile p) (.text (c.takeWhile p).1) (c.takeWhile p).2 := by
  refine ⟨rest.takeWhile p, by rw [h.takeWhile_text], ?_, ?_, ?_⟩
  · rw [h.drop_position]
    exact isLongestRun_takeWhile p rest
  · intro n hn
    exact h.sound_iterate_next (hn.trans (List.takeWhile_prefix p).length_le)
  · have hrun : c.Between past (rest.takeWhile p ++ rest.dropWhile p) := by
      rwa [List.takeWhile_append_dropWhile]
    exact (h.takeWhile_cursor p).cursor_eq hrun.iterate_next

theorem answers (r : Reading) (h : c.Between past rest) :
    Answers c.source c r (c.read r).1 (c.read r).2 := by
  cases r with
  | peek => exact h.answers_peek
  | advance => exact h.answers_advance
  | takeWhile p => exact h.answers_takeWhile p

theorem faithful (rs : List Reading) (h : c.Between past rest) :
    Faithful c.source past c rs (c.readAll rs) := by
  induction rs generalizing c past rest with
  | nil => exact .nil
  | cons r rs ih =>
      obtain ⟨rest', hrest, hread⟩ := h.read r
      have hsource := h.source_eq hread (by rw [hrest, List.append_assoc])
      have hposition : c.position ≤ (c.read r).2.position := by
        rw [hread.position, h.position, List.length_append]
        omega
      have hbyte : c.byte ≤ (c.read r).2.byte := by
        rw [hread.byte, h.byte, String.utf8Len_append]
        omega
      have hscript := ih hread
      have hpast := hread.take_position
      have hsound := hread.sound
      rw [hsource] at hscript hpast hsound
      exact .cons (h.answers r) hsound hposition hbyte hpast.symm hscript

end Between

/-- Whatever is read from a text, in whatever order, every reading is answered by
the text and keeps the cursor sound. -/
theorem readAll_faithful (s : String) (rs : List Reading) :
    (ofString s).Sound s ∧ Faithful s [] (ofString s) rs ((ofString s).readAll rs) :=
  ⟨(between_ofString s).sound, (between_ofString s).faithful rs⟩

end Cursor

end Polish
