import Polish.Proofs.Lexeme

/-!
What scanning comes to.  `Scans` puts the tokens of a text the way the scanner
goes through it: one blank or one lexeme at a time, and a lexeme only where it
cannot go on.  It is the form to induct on.  A text without tokens scans up to
a fault: a character that no lexeme begins with, or a quote that has no second
one behind it.

`scanAll_scanned` says what the scanner makes of every text, tokens or error.
In the other direction it reads what scans and then goes on with what is left
(`Scans.scanAll_append`), as long as no token of the first part goes on in the
second.  Both speak of a scanner in the middle of a text, so that positions are
counted from the beginning of that text.

For a whole text, `tokenize_eq_error_iff_beginning` puts a failing scan down to
a successful one, of the characters before the fault.
-/

namespace Polish

namespace Text

/-- No token goes on in these characters, whatever its kind. -/
def Separate (s : List Char) : Prop :=
  ∀ k : TokenKind, Stops k.continues s

theorem separate_nil : Separate [] := fun _ => stops_nil _

theorem separate_cons_of_ofFirst?_eq_none {c : Char} {s : List Char}
    (hc : TokenKind.ofFirst? c = none) : Separate (c :: s) := by
  intro k
  rw [stops_cons, ← Bool.not_eq_true]
  intro hgo
  rw [TokenKind.ofFirst?_of_continues hgo] at hc
  cases hc

theorem separate_of_isRun_isBlank {w : String} (hw : IsRun isBlank w) (s : List Char) :
    Separate (w.toList ++ s) := by
  obtain ⟨c, tail, hlist, hc⟩ := hw.eq_cons
  rw [hlist]
  exact separate_cons_of_ofFirst?_eq_none (TokenKind.ofFirst?_of_isBlank hc)

theorem Stops.append {p : Char → Bool} {s r : List Char} (hs : Stops p s) (hr : Stops p r) :
    Stops p (s ++ r) := by
  cases s with
  | nil => exact hr
  | cons c s => exact hs

theorem Stops.of_append {p : Char → Bool} {s r : List Char} (h : Stops p (s ++ r)) :
    Stops p s := by
  cases s with
  | nil => exact stops_nil p
  | cons c s => exact h

end Text

open Token Text

/-- The characters `s` are blanks and the lexemes of the tokens `ts` in order,
each lexeme as long as it can be. -/
inductive Scans : List Char → List Token → Prop
  | nil : Scans [] []
  | blank {c : Char} {s : List Char} {ts : List Token} (hc : Text.isBlank c = true)
      (h : Scans s ts) : Scans (c :: s) ts
  | token {t : Token} {s : List Char} {ts : List Token} (ht : t.WellFormed)
      (hstop : Text.Stops t.kind.continues s) (h : Scans s ts) :
      Scans (t.lexeme.toList ++ s) (t :: ts)

variable {s r : List Char} {ts us : List Token}

theorem Scans.wellFormed (h : Scans s ts) : ∀ t ∈ ts, t.WellFormed := by
  induction h with
  | nil => simp
  | blank _ _ ih => exact ih
  | token ht _ _ ih => simpa using ⟨ht, ih⟩

theorem Scans.append_blanks {w : List Char} (hw : ∀ c ∈ w, Text.isBlank c = true)
    (h : Scans s ts) : Scans (w ++ s) ts := by
  induction w with
  | nil => exact h
  | cons c w ih =>
      rw [List.forall_mem_cons] at hw
      exact .blank hw.1 (ih hw.2)

theorem Scans.append (hs : Scans s ts) (hsep : Separate r) (hr : Scans r us) :
    Scans (s ++ r) (ts ++ us) := by
  induction hs with
  | nil => exact hr
  | blank hc _ ih => exact .blank hc ih
  | token ht hstop _ ih =>
      rw [List.append_assoc]
      exact .token ht (hstop.append (hsep _)) ih

/-! ### Faults -/

/-- The characters `s` begin with what the scanner cannot pass, and the error
for it is `e` if `n` characters stand before them. -/
inductive Fault (n : Nat) : List Char → LexError → Prop
  | strange {c : Char} {s : List Char} (hblank : isBlank c = false)
      (hfirst : TokenKind.ofFirst? c = none) : Fault n (c :: s) (.unexpectedCharacter c (n + 1))
  | endless {s : List Char} (hs : '"' ∉ s) : Fault n ('"' :: s) (.unterminatedString (n + 1))

theorem Fault.separate {n : Nat} {e : LexError} (h : Fault n s e) : Separate s := by
  cases h with
  | strange _ hfirst => exact separate_cons_of_ofFirst?_eq_none hfirst
  | endless =>
      intro k
      rw [stops_cons]
      cases k <;> rfl

theorem Token.ScanStep.of_fault {past : List Char} {ch : Char} {e : LexError}
    {out : Except LexError (Option Token × Cursor)} (h : ScanStep past ch s out)
    (hfault : Fault past.length (ch :: s) e) : out = .error e := by
  cases hfault with
  | strange hblank hfirst =>
      cases h with
      | blank hch => simp [hch] at hblank
      | token ht hsplit => simp [ht.ofFirst?_eq hsplit] at hfirst
      | strange => rfl
      | endless hquote =>
          subst hquote
          cases hfirst
  | endless hs =>
      cases h with
      | blank hch => cases hch
      | token ht hsplit => exact absurd (ht.quote_mem hsplit) hs
      | strange _ hfirst => cases hfirst
      | endless => rfl

namespace Token

theorem scanAll_of_peek_none {c : Cursor} (h : c.peek = none) (done : Array Token) :
    scanAll c done = .ok done := by
  rw [scanAll]
  split
  · rfl
  · next hpeek => simp [h] at hpeek

theorem scanAll_of_peek_some {c : Cursor} {ch : Char} (h : c.peek = some ch)
    (done : Array Token) :
    scanAll c done =
      match scanAt ch c with
      | .error e => .error e
      | .ok (none, rest) => scanAll rest done
      | .ok (some t, rest) => scanAll rest (done.push t) := by
  rw [scanAll]
  split
  · next hpeek => simp [h] at hpeek
  · next ch' hpeek =>
    obtain rfl : ch = ch' := by simpa [h] using hpeek
    split <;> simp_all

end Token

/-- The scanner reads every text that scans and goes on with what stands behind
it. -/
theorem Scans.scanAll_append (h : Scans s ts) (hsep : Separate r) {c : Cursor}
    {past : List Char} (hc : c.Between past (s ++ r)) (done : Array Token) :
    ∃ c', c'.Between (past ++ s) r ∧ scanAll c done = scanAll c' (done ++ ts.toArray) := by
  induction h generalizing c past done with
  | nil => exact ⟨c, by simpa using hc, by simp⟩
  | blank hblank _ ih =>
      obtain ⟨c₁, hstep, hc₁⟩ := (scanAt_step hc).of_blank hblank
      obtain ⟨c', hc', hrest⟩ := ih hc₁ done
      refine ⟨c', by simpa using hc', ?_⟩
      rw [scanAll_of_peek_some hc.peek_cons, hstep]
      exact hrest
  | @token t s ts ht hstop _ ih =>
      obtain ⟨ch, tail, hlexeme, -⟩ := ht.lexeme_eq_cons
      have hcons : c.Between past (ch :: (tail ++ (s ++ r))) := by simpa [hlexeme] using hc
      obtain ⟨c₁, hstep, hc₁⟩ :=
        (scanAt_step hcons).of_lexeme ht (hstop.append (hsep _)) (by simp [hlexeme])
      obtain ⟨c', hc', hrest⟩ := ih hc₁ (done.push t)
      refine ⟨c', by simpa using hc', ?_⟩
      rw [scanAll_of_peek_some hcons.peek_cons, hstep]
      simpa using hrest

/-- What a scan of `s` comes to when `n` characters have been passed and the
tokens `done` have been read. -/
inductive Scanned (n : Nat) (s : List Char) (done : Array Token) :
    Except LexError (Array Token) → Prop
  | ok {ts : List Token} (h : Scans s ts) : Scanned n s done (.ok (done ++ ts.toArray))
  | error {p r : List Char} {ts : List Token} {e : LexError} (hs : s = p ++ r)
      (h : Scans p ts) (hfault : Fault (n + p.length) r e) : Scanned n s done (.error e)

namespace Scanned

variable {n : Nat} {done : Array Token} {out : Except LexError (Array Token)}

theorem blank {c : Char} (hc : isBlank c = true) (h : Scanned (n + 1) s done out) :
    Scanned n (c :: s) done out := by
  cases h with
  | ok h => exact .ok (.blank hc h)
  | @error p r ts e hs h hfault =>
      refine .error (p := c :: p) (by rw [hs, List.cons_append]) (.blank hc h) ?_
      rwa [List.length_cons, Nat.add_comm p.length, ← Nat.add_assoc]

theorem token {t : Token} (ht : t.WellFormed) (hstop : Stops t.kind.continues s)
    (h : Scanned (n + t.lexeme.toList.length) s (done.push t) out) :
    Scanned n (t.lexeme.toList ++ s) done out := by
  cases h with
  | @ok ts h =>
      have hout : done.push t ++ ts.toArray = done ++ (t :: ts).toArray := by simp
      rw [hout]
      exact .ok (.token ht hstop h)
  | @error p r ts e hs h hfault =>
      subst hs
      refine .error (p := t.lexeme.toList ++ p) (List.append_assoc ..).symm
        (.token ht hstop.of_append h) ?_
      rwa [List.length_append, ← Nat.add_assoc]

end Scanned

theorem scanAll_scanned {c : Cursor} {past : List Char} (hc : c.Between past s)
    (done : Array Token) : Scanned past.length s done (scanAll c done) := by
  -- Each step leaves fewer characters, also the step that reads a whole run.
  induction hn : s.length using Nat.strongRecOn generalizing c past s done with
  | ind n ih =>
      cases s with
      | nil =>
          rw [scanAll_of_peek_none hc.peek_eq]
          have hnil : Scanned past.length [] done (.ok (done ++ [].toArray)) := .ok .nil
          rwa [Array.append_empty] at hnil
      | cons ch s =>
          rw [scanAll_of_peek_some hc.peek_cons]
          have hstep := scanAt_step hc
          generalize scanAt ch c = out at hstep
          cases hstep with
          | blank hblank hc' =>
              have hrest := ih s.length (by simp [← hn]) hc' done rfl
              rw [List.length_append] at hrest
              exact hrest.blank hblank
          | @token t tail c' ht hsplit hstop hc' =>
              have hlen : tail.length < n := by
                obtain ⟨d, rest, hlexeme, -⟩ := ht.lexeme_eq_cons
                rw [← hn, hsplit, hlexeme]
                simp only [List.cons_append, List.length_cons, List.length_append]
                omega
              have hrest := ih tail.length hlen hc' (done.push t) rfl
              rw [List.length_append] at hrest
              rw [hsplit]
              exact hrest.token ht hstop
          | strange hblank hfirst =>
              exact .error (List.nil_append _).symm .nil (.strange hblank hfirst)
          | endless hquote hs =>
              subst hquote
              exact .error (List.nil_append _).symm .nil (.endless hs)

/-! ### Whole texts -/

theorem tokenize_of_scans {s : String} (h : Scans s.toList ts) : tokenize s = .ok ts := by
  have hstart : (Cursor.ofString s).Between [] (s.toList ++ []) := by
    rw [List.append_nil]
    exact Cursor.between_ofString s
  obtain ⟨c, hc, hscan⟩ := h.scanAll_append separate_nil hstart #[]
  rw [tokenize, hscan, scanAll_of_peek_none hc.peek_eq]
  simp [Except.map]

theorem scans_of_tokenize {s : String} (h : tokenize s = .ok ts) : Scans s.toList ts := by
  have hscanned := scanAll_scanned (Cursor.between_ofString s) #[]
  rw [tokenize] at h
  generalize scanAll (Cursor.ofString s) #[] = out at h hscanned
  cases hscanned with
  | @ok us hus =>
      obtain rfl : us = ts := by simpa [Except.map] using h
      exact hus
  | error => cases h

theorem tokenize_eq_error_iff {s : String} {e : LexError} :
    tokenize s = .error e ↔
      ∃ p r ts, s.toList = p ++ r ∧ Scans p ts ∧ Fault p.length r e := by
  constructor
  · intro h
    have hscanned := scanAll_scanned (Cursor.between_ofString s) #[]
    rw [tokenize] at h
    generalize scanAll (Cursor.ofString s) #[] = out at h hscanned
    cases hscanned with
    | ok => cases h
    | @error p r ts e' hs hp hfault =>
        cases h
        rw [List.length_nil, Nat.zero_add] at hfault
        exact ⟨p, r, ts, hs, hp, hfault⟩
  · rintro ⟨p, r, ts, hs, hp, hfault⟩
    have hstart := Cursor.between_ofString s
    rw [hs] at hstart
    -- The scan of `p` is not changed by what comes after, since a fault goes on with no token.
    obtain ⟨c, hc, hscan⟩ := hp.scanAll_append hfault.separate hstart #[]
    cases r with
    | nil => cases hfault
    | cons ch r =>
        have hstep := (scanAt_step hc).of_fault hfault
        rw [tokenize, hscan, scanAll_of_peek_some hc.peek_cons, hstep]
        rfl

def Text.beginning (s : String) (n : Nat) : String :=
  String.ofList (s.toList.take n)

theorem TokenKind.ofFirst?_eq_none_iff {c : Char} :
    ofFirst? c = none ↔
      c ≠ '(' ∧ c ≠ ')' ∧ c ≠ '"' ∧ c.isDigit = false ∧ c.isAlpha = false := by
  unfold ofFirst?
  split_ifs <;> simp_all

/-- A text has no tokens exactly if some beginning of it has tokens and is
followed by a fault. -/
theorem tokenize_eq_error_iff_beginning {s : String} {e : LexError} :
    tokenize s = .error e ↔
      ∃ n, (∃ ts, tokenize (beginning s n) = .ok ts) ∧ Fault n (s.toList.drop n) e := by
  rw [tokenize_eq_error_iff]
  constructor
  · rintro ⟨p, r, ts, hs, hp, hfault⟩
    refine ⟨p.length, ⟨ts, tokenize_of_scans ?_⟩, ?_⟩
    · simpa [beginning, hs] using hp
    · simpa [hs] using hfault
  · rintro ⟨n, ⟨ts, hts⟩, hfault⟩
    have hscans := scans_of_tokenize hts
    rw [beginning, String.toList_ofList] at hscans
    refine ⟨s.toList.take n, s.toList.drop n, ts, (List.take_append_drop n _).symm, hscans, ?_⟩
    -- Something stands behind the beginning, so it is as long as it says.
    have hn : n ≤ s.toList.length := by
      by_contra hlong
      rw [List.drop_eq_nil_of_le (by omega)] at hfault
      cases hfault
    rwa [List.length_take_of_le hn]

theorem fault_unexpectedCharacter_iff {n p : Nat} {s : List Char} {c : Char} :
    Fault n (s.drop n) (.unexpectedCharacter c p) ↔
      p = n + 1 ∧ s[n]? = some c ∧ isBlank c = false ∧ TokenKind.ofFirst? c = none := by
  rw [← List.head?_drop]
  constructor
  · intro h
    generalize s.drop n = r at h
    cases h with
    | strange hblank hfirst => exact ⟨rfl, rfl, hblank, hfirst⟩
  · rintro ⟨rfl, hc, hblank, hfirst⟩
    obtain ⟨r, hr⟩ := List.head?_eq_some_iff.mp hc
    rw [hr]
    exact .strange hblank hfirst

theorem fault_unterminatedString_iff {n p : Nat} {s : List Char} :
    Fault n (s.drop n) (.unterminatedString p) ↔
      p = n + 1 ∧ s[n]? = some '"' ∧ '"' ∉ s.drop (n + 1) := by
  rw [← List.head?_drop, ← List.tail_drop]
  constructor
  · intro h
    generalize s.drop n = r at h
    cases h with
    | endless hs => exact ⟨rfl, rfl, hs⟩
  · rintro ⟨rfl, hc, hs⟩
    obtain ⟨r, hr⟩ := List.head?_eq_some_iff.mp hc
    rw [hr] at hs ⊢
    exact .endless hs

/-- A lexical error is the first there is and stands where its position says.
The characters before it have tokens; the one at the position is a character
that begins nothing, or a quote without a second one behind it. -/
theorem tokenize_eq_error_iff_located (s : String) :
    (∀ c p, tokenize s = .error (.unexpectedCharacter c p) ↔
      1 ≤ p ∧ s.toList[p - 1]? = some c ∧
        (c ≠ '(' ∧ c ≠ ')' ∧ c ≠ '"' ∧ isBlank c = false ∧ c.isDigit = false ∧
          c.isAlpha = false) ∧
        ∃ ts, tokenize (beginning s (p - 1)) = .ok ts) ∧
    ∀ p, tokenize s = .error (.unterminatedString p) ↔
      1 ≤ p ∧ s.toList[p - 1]? = some '"' ∧
        (∃ ts, tokenize (beginning s (p - 1)) = .ok ts) ∧ '"' ∉ s.toList.drop p := by
  refine ⟨fun c p => ?_, fun p => ?_⟩
  · simp only [tokenize_eq_error_iff_beginning, fault_unexpectedCharacter_iff,
      TokenKind.ofFirst?_eq_none_iff]
    constructor
    · rintro ⟨n, hts, rfl, hc, hblank, hopen, hclose, hquote, hdigit, halpha⟩
      exact ⟨by omega, hc, ⟨hopen, hclose, hquote, hblank, hdigit, halpha⟩, hts⟩
    · rintro ⟨hp, hc, ⟨hopen, hclose, hquote, hblank, hdigit, halpha⟩, hts⟩
      exact ⟨p - 1, hts, by omega, hc, hblank, hopen, hclose, hquote, hdigit, halpha⟩
  · simp only [tokenize_eq_error_iff_beginning, fault_unterminatedString_iff]
    constructor
    · rintro ⟨n, hts, rfl, hc, hs⟩
      exact ⟨by omega, hc, hts, hs⟩
    · rintro ⟨hp, hc, hts, hs⟩
      refine ⟨p - 1, hts, by omega, hc, ?_⟩
      rwa [Nat.sub_add_cancel hp]

end Polish
