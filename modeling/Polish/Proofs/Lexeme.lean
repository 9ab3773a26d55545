import Polish.Proofs.Place
import Polish.Token.Scan
import Mathlib.Data.List.TakeWhile

/-!
Lexemes: how a token is written, and what one step of the scanner does.

A token is well formed if its text is one that its kind can be read from.  The
first character of a lexeme tells its kind, and a lexeme ends where the next
character cannot go on with it.  Hence a text begins with at most one lexeme
(`lexeme_append_inj`), which is all there is to maximal munch.

`scanAt_step` says everything that a step can do, the errors included, and
says it about lists of characters.  Later proofs use this statement and do not
open the scanner again.
-/

namespace Polish

namespace Text

def IsRun (p : Char → Bool) (s : String) : Prop :=
  s ≠ "" ∧ ∀ c ∈ s.toList, p c = true

/-- The first character, if there is one, is not of the class. -/
def Stops (p : Char → Bool) (s : List Char) : Prop :=
  ∀ c ∈ s.head?, p c = false

@[simp] theorem stops_nil (p : Char → Bool) : Stops p [] := by simp [Stops]

@[simp] theorem stops_cons {p : Char → Bool} {c : Char} {s : List Char} :
    Stops p (c :: s) ↔ p c = false := by
  simp [Stops]

theorem stops_dropWhile (p : Char → Bool) (s : List Char) : Stops p (s.dropWhile p) := by
  intro c hc
  have h := List.head?_dropWhile_not p s
  rw [Option.mem_def.mp hc] at h
  simpa using h

theorem takeWhile_append_of_stops {p : Char → Bool} {a s : List Char}
    (ha : ∀ c ∈ a, p c = true) (hs : Stops p s) : (a ++ s).takeWhile p = a := by
  rw [List.takeWhile_append_of_pos ha]
  cases s with
  | nil => simp
  | cons c s =>
      rw [stops_cons] at hs
      simp [hs]

/-- Where a run ends is determined by the text. -/
theorem run_append_inj {p : Char → Bool} {a b s t : List Char} (ha : ∀ c ∈ a, p c = true)
    (hb : ∀ c ∈ b, p c = true) (hs : Stops p s) (ht : Stops p t) (h : a ++ s = b ++ t) :
    a = b ∧ s = t := by
  have hab : a = b := by
    rw [← takeWhile_append_of_stops ha hs, h, takeWhile_append_of_stops hb ht]
  subst hab
  exact ⟨rfl, List.append_cancel_left h⟩

theorem IsRun.eq_cons {p : Char → Bool} {a : String} (ha : IsRun p a) :
    ∃ c tail, a.toList = c :: tail ∧ p c = true := by
  obtain ⟨hne, hall⟩ := ha
  obtain ⟨c, tail, hlist⟩ := List.exists_cons_of_ne_nil (mt String.toList_eq_nil_iff.mp hne)
  exact ⟨c, tail, hlist, hall c (by simp [hlist])⟩

theorem IsRun.not_mem {p : Char → Bool} {a : String} {c : Char} (ha : IsRun p a)
    (hc : p c = false) : c ∉ a.toList := by
  intro hmem
  rw [ha.2 c hmem] at hc
  cases hc

theorem IsRun.append_inj {p : Char → Bool} {a b : String} {s t : List Char} (ha : IsRun p a)
    (hb : IsRun p b) (hs : Stops p s) (ht : Stops p t) (h : a.toList ++ s = b.toList ++ t) :
    a = b ∧ s = t := by
  obtain ⟨hlist, hrest⟩ := run_append_inj ha.2 hb.2 hs ht h
  exact ⟨String.toList_injective hlist, hrest⟩

theorem bne_quote_of_not_mem {s : List Char} (h : '"' ∉ s) : ∀ c ∈ s, (c != '"') = true := by
  intro c hc
  rw [bne_iff_ne]
  rintro rfl
  exact h hc

theorem isAlpha_iff_toNat {c : Char} :
    c.isAlpha = true ↔ 65 ≤ c.toNat ∧ c.toNat ≤ 90 ∨ 97 ≤ c.toNat ∧ c.toNat ≤ 122 := by
  have hcases : c.isAlpha = (decide ('A'.val ≤ c.val ∧ c.val ≤ 'Z'.val) ||
      decide ('a'.val ≤ c.val) && decide (c.val ≤ 'z'.val)) := rfl
  rw [hcases, Bool.or_eq_true, Bool.and_eq_true, decide_eq_true_eq, decide_eq_true_eq,
    decide_eq_true_eq]
  simp only [UInt32.le_iff_toNat_le]
  exact Iff.rfl

theorem isDigit_eq_false_of_isAlpha {c : Char} (h : c.isAlpha = true) : c.isDigit = false := by
  rw [isAlpha_iff_toNat] at h
  rw [← Bool.not_eq_true, Char.isDigit_iff_toNat]
  change ¬(48 ≤ c.toNat ∧ c.toNat ≤ 57)
  omega

/-- No blank character lies between the space and the next-line control, where
everything that a lexeme can begin with is. -/
theorem toNat_of_isBlank {c : Char} (h : isBlank c = true) : c.toNat ≤ 32 ∨ 133 ≤ c.toNat := by
  simp only [isBlank, blankRanges, List.any_cons, List.any_nil, Bool.or_eq_true, Bool.and_eq_true,
    decide_eq_true_eq, Bool.or_false] at h
  omega

end Text

def TokenKind.ofFirst? (c : Char) : Option TokenKind :=
  if c = '(' then some .opening
  else if c = ')' then some .closing
  else if c.isDigit then some .number
  else if c = '"' then some .string
  else if c.isAlpha then some .name
  else none

/-- Whether a character goes on with a token of a kind.  Only numbers and names
have no end of their own. -/
def TokenKind.continues : TokenKind → Char → Bool
  | .number => Char.isDigit
  | .name => Char.isAlpha
  | _ => fun _ => false

theorem TokenKind.ofFirst?_of_isDigit {c : Char} (h : c.isDigit = true) :
    ofFirst? c = some .number := by
  have hopen : c ≠ '(' := by rintro rfl; simp at h
  have hclose : c ≠ ')' := by rintro rfl; simp at h
  simp [ofFirst?, hopen, hclose, h]

theorem TokenKind.ofFirst?_of_isAlpha {c : Char} (h : c.isAlpha = true) :
    ofFirst? c = some .name := by
  have hopen : c ≠ '(' := by rintro rfl; simp at h
  have hclose : c ≠ ')' := by rintro rfl; simp at h
  have hquote : c ≠ '"' := by rintro rfl; simp at h
  simp [ofFirst?, hopen, hclose, hquote, Text.isDigit_eq_false_of_isAlpha h, h]

theorem TokenKind.ofFirst?_of_isBlank {c : Char} (h : Text.isBlank c = true) :
    ofFirst? c = none := by
  have hrange := Text.toNat_of_isBlank h
  have hopen : c ≠ '(' := by rintro rfl; simp at hrange
  have hclose : c ≠ ')' := by rintro rfl; simp at hrange
  have hquote : c ≠ '"' := by rintro rfl; simp at hrange
  have hdigit : ¬c.isDigit = true := by
    rw [Char.isDigit_iff_toNat]
    change ¬(48 ≤ c.toNat ∧ c.toNat ≤ 57)
    omega
  have halpha : ¬c.isAlpha = true := by
    rw [Text.isAlpha_iff_toNat]
    omega
  simp [ofFirst?, hopen, hclose, hquote, hdigit, halpha]

theorem TokenKind.ofFirst?_of_continues {k : TokenKind} {c : Char} (h : k.continues c = true) :
    ofFirst? c = some k := by
  cases k with
  | number => exact ofFirst?_of_isDigit h
  | name => exact ofFirst?_of_isAlpha h
  | opening => cases h
  | closing => cases h
  | string => cases h

theorem TokenKind.isDigit_of_ofFirst? {c : Char} (h : ofFirst? c = some .number) :
    c.isDigit = true := by
  unfold ofFirst? at h
  split_ifs at h <;> simp_all

theorem TokenKind.isAlpha_of_ofFirst? {c : Char} (h : ofFirst? c = some .name) :
    c.isAlpha = true := by
  unfold ofFirst? at h
  split_ifs at h <;> simp_all

namespace Token

/-- Whether the text of a token is one that its kind can be read from. -/
def WellFormed (t : Token) : Prop :=
  match t.kind with
  | .opening => t.text = "("
  | .closing => t.text = ")"
  | .number => Text.IsRun Char.isDigit t.text
  | .string => '"' ∉ t.text.toList
  | .name => Text.IsRun Char.isAlpha t.text

/-- A token as it is written: its text, with quotes around it for a string. -/
def lexeme (t : Token) : String :=
  match t.kind with
  | .string => "\"" ++ t.text ++ "\""
  | _ => t.text

/-- The first character of a lexeme tells the kind of the token. -/
theorem WellFormed.lexeme_eq_cons {t : Token} (ht : t.WellFormed) :
    ∃ c tail, t.lexeme.toList = c :: tail ∧ TokenKind.ofFirst? c = some t.kind := by
  obtain ⟨kind, text⟩ := t
  cases kind with
  | opening =>
      obtain rfl : text = "(" := ht
      exact ⟨'(', [], rfl, rfl⟩
  | closing =>
      obtain rfl : text = ")" := ht
      exact ⟨')', [], rfl, rfl⟩
  | string => exact ⟨'"', text.toList ++ ['"'], by simp [lexeme], rfl⟩
  | number =>
      have hrun : Text.IsRun Char.isDigit text := ht
      obtain ⟨c, tail, htext, hc⟩ := hrun.eq_cons
      exact ⟨c, tail, htext, TokenKind.ofFirst?_of_isDigit hc⟩
  | name =>
      have hrun : Text.IsRun Char.isAlpha text := ht
      obtain ⟨c, tail, htext, hc⟩ := hrun.eq_cons
      exact ⟨c, tail, htext, TokenKind.ofFirst?_of_isAlpha hc⟩

/-- A text begins with at most one lexeme: where the next character does not go
on with the token, both the token and what follows it are determined. -/
theorem lexeme_append_inj {t u : Token} {s r : List Char} (ht : t.WellFormed)
    (hu : u.WellFormed) (hs : Text.Stops t.kind.continues s) (hr : Text.Stops u.kind.continues r)
    (h : t.lexeme.toList ++ s = u.lexeme.toList ++ r) : t = u ∧ s = r := by
  have hkind : t.kind = u.kind := by
    obtain ⟨c, tail, htext, hc⟩ := ht.lexeme_eq_cons
    obtain ⟨d, tail', hutext, hd⟩ := hu.lexeme_eq_cons
    rw [htext, hutext, List.cons_append, List.cons_append, List.cons.injEq] at h
    rw [h.1, hd] at hc
    exact (Option.some.inj hc).symm
  obtain ⟨kind, text⟩ := t
  obtain ⟨kind', text'⟩ := u
  obtain rfl : kind = kind' := hkind
  cases kind with
  | opening =>
      obtain rfl : text = "(" := ht
      obtain rfl : text' = "(" := hu
      exact ⟨rfl, List.append_cancel_left h⟩
  | closing =>
      obtain rfl : text = ")" := ht
      obtain rfl : text' = ")" := hu
      exact ⟨rfl, List.append_cancel_left h⟩
  | number =>
      obtain ⟨rfl, hrest⟩ := Text.IsRun.append_inj ht hu hs hr h
      exact ⟨rfl, hrest⟩
  | name =>
      obtain ⟨rfl, hrest⟩ := Text.IsRun.append_inj ht hu hs hr h
      exact ⟨rfl, hrest⟩
  | string =>
      -- The content is a run too, and the closing quote ends it.
      have hcontent : text.toList ++ '"' :: s = text'.toList ++ '"' :: r := by
        simpa [lexeme] using h
      obtain ⟨hlist, hrest⟩ := Text.run_append_inj (Text.bne_quote_of_not_mem ht)
        (Text.bne_quote_of_not_mem hu) (by simp) (by simp) hcontent
      obtain rfl : text = text' := String.toList_injective hlist
      exact ⟨rfl, (List.cons.inj hrest).2⟩

/-! ### One step of the scanner -/

/-- What a step of the scanner comes to when `past` has been passed, `ch` is the
next character and `s` is what follows it. -/
inductive ScanStep (past : List Char) (ch : Char) (s : List Char) :
    Except LexError (Option Token × Cursor) → Prop
  | blank {c : Cursor} (hblank : Text.isBlank ch = true) (hc : c.Between (past ++ [ch]) s) :
      ScanStep past ch s (.ok (none, c))
  | token {t : Token} {tail : List Char} {c : Cursor} (ht : t.WellFormed)
      (hsplit : ch :: s = t.lexeme.toList ++ tail) (hstop : Text.Stops t.kind.continues tail)
      (hc : c.Between (past ++ t.lexeme.toList) tail) : ScanStep past ch s (.ok (some t, c))
  | strange (hblank : Text.isBlank ch = false) (hfirst : TokenKind.ofFirst? ch = none) :
      ScanStep past ch s (.error (.unexpectedCharacter ch (past.length + 1)))
  | endless (hquote : ch = '"') (hs : '"' ∉ s) :
      ScanStep past ch s (.error (.unterminatedString (past.length + 1)))

variable {c : Cursor} {past s : List Char} {ch : Char}

theorem scanStep_bracket {kind : TokenKind} (h : c.Between past (ch :: s))
    (ht : (⟨kind, ch.toString⟩ : Token).WellFormed)
    (hlexeme : (⟨kind, ch.toString⟩ : Token).lexeme.toList = [ch])
    (hstop : ∀ d, kind.continues d = false) :
    ScanStep past ch s (.ok (some ⟨kind, ch.toString⟩, c.next)) := by
  have hsplit : ch :: s = (⟨kind, ch.toString⟩ : Token).lexeme.toList ++ s := by
    rw [hlexeme]
    rfl
  refine .token ht hsplit (fun d _ => hstop d) ?_
  rw [hlexeme]
  exact h.next

theorem scanStep_run (kind : TokenKind) (h : c.Between past (ch :: s))
    (hch : kind.continues ch = true)
    (ht : ∀ text, Text.IsRun kind.continues text → (⟨kind, text⟩ : Token).WellFormed)
    (hlexeme : ∀ text, (⟨kind, text⟩ : Token).lexeme = text) :
    ScanStep past ch s (.ok (scanRun kind kind.continues c)) := by
  rw [scanRun, h.takeWhile_text]
  have hrun : Text.IsRun kind.continues
      (String.ofList ((ch :: s).takeWhile kind.continues)) := by
    refine ⟨?_, ?_⟩
    · rw [List.takeWhile_cons_of_pos hch]
      exact fun hempty => by simpa using congrArg String.toList hempty
    · intro d hd
      rw [String.toList_ofList] at hd
      exact List.mem_takeWhile_imp hd
  have hsplit : ch :: s =
      (⟨kind, String.ofList ((ch :: s).takeWhile kind.continues)⟩ : Token).lexeme.toList ++
        (ch :: s).dropWhile kind.continues := by
    rw [hlexeme, String.toList_ofList, List.takeWhile_append_dropWhile]
  refine .token (ht _ hrun) hsplit (Text.stops_dropWhile _ _) ?_
  rw [hlexeme, String.toList_ofList]
  exact h.takeWhile_cursor _

/-- A string is read up to the next quote; without one it has no end. -/
theorem scanStep_string (h : c.Between past ('"' :: s)) :
    ScanStep past '"' s (scanString c) := by
  have htext := h.next.takeWhile_text (· != Text.quote)
  have hcursor := h.next.takeWhile_cursor (· != Text.quote)
  rw [scanString, hcursor.peek_eq, htext]
  cases hrest : s.dropWhile (· != Text.quote) with
  | nil =>
      have hquote : '"' ∉ s := by
        rw [List.dropWhile_eq_nil_iff] at hrest
        intro hmem
        simpa [Text.quote] using hrest _ hmem
      simp only [List.head?_nil, reduceCtorEq, if_false, h.position]
      exact .endless rfl hquote
  | cons d tail =>
      have hd : d = '"' := by
        have hstop := Text.stops_dropWhile (· != Text.quote) s
        rw [hrest, Text.stops_cons] at hstop
        simpa [Text.quote] using hstop
      subst hd
      have hs : s = s.takeWhile (· != Text.quote) ++ '"' :: tail := by
        rw [← hrest, List.takeWhile_append_dropWhile]
      have hwell : ∀ c ∈ s.takeWhile (· != Text.quote), c ≠ '"' := by
        intro c hc
        simpa [Text.quote] using List.mem_takeWhile_imp hc
      rw [hrest] at hcursor
      -- Only the two facts about the content matter, not how it was found.
      generalize s.takeWhile (· != Text.quote) = content at hs hwell hcursor
      subst hs
      have ht : (⟨.string, String.ofList content⟩ : Token).WellFormed := by
        intro hmem
        rw [String.toList_ofList] at hmem
        exact hwell _ hmem rfl
      have hsplit : '"' :: (content ++ '"' :: tail) =
          (⟨.string, String.ofList content⟩ : Token).lexeme.toList ++ tail := by
        simp [lexeme]
      rw [List.head?_cons, if_pos (show some '"' = some Text.quote from rfl)]
      refine .token ht hsplit (fun _ _ => rfl) ?_
      simpa [lexeme] using hcursor.next

/-- Everything that one step of the scanner can do. -/
theorem scanAt_step (h : c.Between past (ch :: s)) : ScanStep past ch s (scanAt ch c) := by
  unfold scanAt
  -- The cases are those of the scanner, in its order; what passes all tests begins nothing.
  split
  · next hopen =>
    subst hopen
    exact scanStep_bracket h rfl rfl fun _ => rfl
  split
  · next hclose =>
    subst hclose
    exact scanStep_bracket h rfl rfl fun _ => rfl
  split
  · next hblank => exact .blank hblank h.next
  split
  · next hdigit => exact scanStep_run .number h hdigit (fun _ ht => ht) fun _ => rfl
  split
  · next hquote =>
    subst hquote
    exact scanStep_string h
  split
  · next halpha => exact scanStep_run .name h halpha (fun _ ht => ht) fun _ => rfl
  · next hopen hclose hblank hdigit hquote halpha =>
    rw [h.position]
    refine .strange (by simpa using hblank) ?_
    simp only [Text.quote] at hquote
    simp [TokenKind.ofFirst?, hopen, hclose, hdigit, hquote, halpha]

/-! ### What the next characters decide

A step at a blank skips it, and a step at a lexeme reads that lexeme, since no
other outcome fits the characters. -/

variable {t : Token} {tail : List Char} {r : Except LexError (Option Token × Cursor)}

theorem WellFormed.ofFirst?_eq (ht : t.WellFormed) (hsplit : ch :: s = t.lexeme.toList ++ tail) :
    TokenKind.ofFirst? ch = some t.kind := by
  obtain ⟨d, rest, hlexeme, hd⟩ := ht.lexeme_eq_cons
  rw [hlexeme, List.cons_append, List.cons.injEq] at hsplit
  rw [hsplit.1, hd]

theorem WellFormed.quote_mem (ht : t.WellFormed) (hsplit : '"' :: s = t.lexeme.toList ++ tail) :
    '"' ∈ s := by
  have hfirst := ht.ofFirst?_eq hsplit
  obtain ⟨kind, text⟩ := t
  obtain rfl : TokenKind.string = kind := Option.some.inj hfirst
  have hs : s = text.toList ++ '"' :: tail := by simpa [lexeme] using hsplit
  simp [hs]

theorem ScanStep.of_blank (h : ScanStep past ch s r) (hch : Text.isBlank ch = true) :
    ∃ c, r = .ok (none, c) ∧ c.Between (past ++ [ch]) s := by
  have hfirst := TokenKind.ofFirst?_of_isBlank hch
  cases h with
  | @blank c _ hc => exact ⟨c, rfl, hc⟩
  | token ht hsplit => simp [ht.ofFirst?_eq hsplit] at hfirst
  | strange hblank => simp [hch] at hblank
  | endless hquote =>
      subst hquote
      cases hfirst

theorem ScanStep.of_lexeme (h : ScanStep past ch s r) (ht : t.WellFormed)
    (hstop : Text.Stops t.kind.continues tail) (hsplit : ch :: s = t.lexeme.toList ++ tail) :
    ∃ c, r = .ok (some t, c) ∧ c.Between (past ++ t.lexeme.toList) tail := by
  have hfirst := ht.ofFirst?_eq hsplit
  cases h with
  | blank hblank =>
      rw [TokenKind.ofFirst?_of_isBlank hblank] at hfirst
      cases hfirst
  | @token u rest c hu hsplit' hstop' hc =>
      obtain ⟨rfl, rfl⟩ := lexeme_append_inj ht hu hstop hstop' (hsplit.symm.trans hsplit')
      exact ⟨c, rfl, hc⟩
  | strange _ hnone => simp [hnone] at hfirst
  | endless hquote hs =>
      subst hquote
      exact absurd (ht.quote_mem hsplit) hs

end Token

end Polish
