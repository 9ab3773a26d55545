import Polish.Proofs.Scanning

/-!
The turns of the scanning loop.

The character at the cursor decides which branch a turn takes, and each branch
has to pass that character itself.  `ScansIn` follows the loop turn by turn up to
its end and keeps with every turn what it has done: it has passed at least one
character, and it has put one token behind those read before, or none at a
blank.  A loop that goes on in this way has no more turns than the text has
characters.
-/

namespace Polish

open Token Text

namespace Token

/-- With the cursor at `c` and the tokens `done` read, the scanning loop stops
after a number of turns and comes to `out`.  A turn that fails is the last. -/
inductive ScansIn : Nat → Cursor → Array Token → Except LexError (Array Token) → Prop
  | stop {c : Cursor} {done : Array Token} (hpeek : c.peek = none) : ScansIn 0 c done (.ok done)
  | fault {c : Cursor} {ch : Char} {done : Array Token} {e : LexError}
      (hpeek : c.peek = some ch) (hscan : scanAt ch c = .error e) : ScansIn 1 c done (.error e)
  | blank {turns : Nat} {c c' : Cursor} {ch : Char} {done : Array Token}
      {out : Except LexError (Array Token)} (hpeek : c.peek = some ch)
      (hscan : scanAt ch c = .ok (none, c')) (hblank : isBlank ch = true)
      (hposition : c.position < c'.position) (h : ScansIn turns c' done out) :
      ScansIn (turns + 1) c done out
  | token {turns : Nat} {c c' : Cursor} {ch : Char} {t : Token} {done : Array Token}
      {out : Except LexError (Array Token)} (hpeek : c.peek = some ch)
      (hscan : scanAt ch c = .ok (some t, c')) (hblank : isBlank ch = false)
      (htext : t.kind ≠ .string → t.text ≠ "") (hposition : c.position < c'.position)
      (h : ScansIn turns c' (done.push t) out) : ScansIn (turns + 1) c done out

theorem ScansIn.size_le {turns : Nat} {c : Cursor} {done ts : Array Token}
    {out : Except LexError (Array Token)} (h : ScansIn turns c done out) (hout : out = .ok ts) :
    ts.size ≤ done.size + turns := by
  induction h with
  | stop =>
      cases hout
      exact Nat.le_refl _
  | fault => cases hout
  | blank _ _ _ _ _ ih =>
      have := ih hout
      omega
  | token _ _ _ _ _ _ ih =>
      have := ih hout
      rw [Array.size_push] at this
      omega

variable {t : Token}

/-- Only a string can have no text, since its lexeme has quotes besides. -/
theorem WellFormed.text_ne_empty (ht : t.WellFormed) (hkind : t.kind ≠ .string) : t.text ≠ "" := by
  obtain ⟨kind, text⟩ := t
  cases kind with
  | opening =>
      obtain rfl : text = "(" := ht
      decide
  | closing =>
      obtain rfl : text = ")" := ht
      decide
  | number => exact And.left (show IsRun Char.isDigit text from ht)
  | name => exact And.left (show IsRun Char.isAlpha text from ht)
  | string => exact absurd rfl hkind

theorem WellFormed.length_lexeme_pos (ht : t.WellFormed) : 0 < t.lexeme.toList.length := by
  obtain ⟨ch, tail, hlexeme, -⟩ := ht.lexeme_eq_cons
  rw [hlexeme, List.length_cons]
  omega

theorem WellFormed.isBlank_eq_false (ht : t.WellFormed) {ch : Char} {s tail : List Char}
    (hsplit : ch :: s = t.lexeme.toList ++ tail) : isBlank ch = false := by
  rw [← Bool.not_eq_true]
  intro hblank
  have hfirst := ht.ofFirst?_eq hsplit
  rw [TokenKind.ofFirst?_of_isBlank hblank] at hfirst
  cases hfirst

/-- The loop has no more turns than there are characters in front of it. -/
theorem exists_scansIn {c : Cursor} {past s : List Char} (hc : c.Between past s)
    (done : Array Token) : ∃ turns ≤ s.length, ScansIn turns c done (scanAll c done) := by
  induction hn : s.length using Nat.strongRecOn generalizing c past s done with
  | ind n ih =>
      cases s with
      | nil =>
          rw [scanAll_of_peek_none hc.peek_eq]
          exact ⟨0, Nat.zero_le n, .stop hc.peek_eq⟩
      | cons ch s =>
          rw [List.length_cons] at hn
          rw [scanAll_of_peek_some hc.peek_cons]
          have hstep := scanAt_step hc
          generalize hscan : scanAt ch c = out at hstep
          cases hstep with
          | @blank c' hblank hc' =>
              obtain ⟨turns, hle, hturns⟩ := ih s.length (by omega) hc' done rfl
              have hposition : c.position < c'.position := by
                rw [hc.position, hc'.position, List.length_append, List.length_singleton]
                omega
              exact ⟨turns + 1, by omega, .blank hc.peek_cons hscan hblank hposition hturns⟩
          | @token t tail c' ht hsplit hstop hc' =>
              -- The token may have no text, but its lexeme has at least the quotes.
              have hpos := ht.length_lexeme_pos
              have hlength : n = t.lexeme.toList.length + tail.length := by
                rw [← hn, ← List.length_cons, hsplit, List.length_append]
              obtain ⟨turns, hle, hturns⟩ := ih tail.length (by omega) hc' (done.push t) rfl
              have hposition : c.position < c'.position := by
                rw [hc.position, hc'.position, List.length_append]
                omega
              exact ⟨turns + 1, by omega, .token hc.peek_cons hscan (ht.isBlank_eq_false hsplit)
                ht.text_ne_empty hposition hturns⟩
          | strange => exact ⟨1, by omega, .fault hc.peek_cons hscan⟩
          | endless => exact ⟨1, by omega, .fault hc.peek_cons hscan⟩

end Token

/-- Scanning a text stops, and neither its turns nor its tokens are more than the
characters of the text. -/
structure ScanStops (s : String) : Prop where
  turns : ∃ turns ≤ s.length,
    ScansIn turns (Cursor.ofString s) #[] (scanAll (Cursor.ofString s) #[])
  tokens : ∀ ts, tokenize s = .ok ts → ts.length ≤ s.length

theorem scanStops (s : String) : ScanStops s := by
  obtain ⟨turns, hle, hturns⟩ := exists_scansIn (Cursor.between_ofString s) #[]
  rw [String.length_toList] at hle
  refine ⟨⟨turns, hle, hturns⟩, ?_⟩
  intro ts hts
  rw [tokenize] at hts
  cases hscan : scanAll (Cursor.ofString s) #[] with
  | error e =>
      rw [hscan] at hts
      cases hts
  | ok found =>
      rw [hscan] at hts
      obtain rfl : found.toList = ts := Except.ok.inj hts
      have hsize := hturns.size_le hscan
      rw [Array.length_toList]
      simp only [List.size_toArray, List.length_nil] at hsize
      omega

end Polish
