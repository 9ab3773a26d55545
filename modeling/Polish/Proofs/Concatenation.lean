import Polish.Proofs.Decoding

/-!
Texts behind one another.  If a text compiles and blanks stand behind it, then
what follows is compiled as if it stood alone: its lines come behind those of
the first text, and its errors are the same, except that a position counts the
characters before it as well.

Each stage has its part in this.  Blanks end every token, so the scanner is
between two tokens when the second text begins (`tokenize_append`).  The tokens
of a text that compiles spell whole items, so the reader is between two items
(`parse_append`).  The lines of the two programs are joined by one more line
end, unless one of them has no lines, and a program without lines is one
without items (`output_append`).
-/

namespace Polish

open Source Text

variable {a w : String} {ts us : List Token} {body : List Source}

def LexError.shift (n : Nat) : LexError → LexError
  | .unexpectedCharacter c p => .unexpectedCharacter c (p + n)
  | .unterminatedString p => .unterminatedString (p + n)

theorem Fault.shift {n : Nat} {s : List Char} {e : LexError} (h : Fault n s e) (m : Nat) :
    Fault (n + m) s (e.shift m) := by
  cases h with
  | strange hblank hfirst =>
      rw [LexError.shift, Nat.add_right_comm]
      exact .strange hblank hfirst
  | endless hs =>
      rw [LexError.shift, Nat.add_right_comm]
      exact .endless hs

theorem tokenize_append (ha : tokenize a = .ok ts) (hw : IsRun isBlank w) (b : String) :
    tokenize (a ++ w ++ b) =
      ((tokenize b).map (ts ++ ·)).mapError (LexError.shift (a ++ w).length) := by
  -- The blanks end the last token of `a`, and change nothing for what comes next.
  have hscans : ∀ {s us}, Scans s us → Scans (a.toList ++ (w.toList ++ s)) (ts ++ us) := by
    intro s us hs
    exact (scans_of_tokenize ha).append (separate_of_isRun_isBlank hw s) (hs.append_blanks hw.2)
  cases hb : tokenize b with
  | ok us =>
      apply tokenize_of_scans
      rw [String.toList_append, String.toList_append, List.append_assoc]
      exact hscans (scans_of_tokenize hb)
  | error e =>
      obtain ⟨p, r, us, hsplit, hp, hfault⟩ := tokenize_eq_error_iff.mp hb
      apply tokenize_eq_error_iff.mpr
      refine ⟨a.toList ++ (w.toList ++ p), r, ts ++ us, ?_, hscans hp, ?_⟩
      · simp [hsplit]
      · have hlength : (a.toList ++ (w.toList ++ p)).length = p.length + (a ++ w).length := by
          simp only [List.length_append, String.length_toList, String.length_append]
          omega
        rw [hlength]
        exact hfault.shift _

/-- The program with more items in front. -/
def Source.behind (body : List Source) (t : Source) : Source :=
  .program (body ++ t.children)

theorem parse_append (h : Linear body ts) (us : List Token) :
    parse (ts ++ us) = (parse us).map (behind body) := by
  rw [parse, parse, h.readBody_append]
  cases readBody us <;> rfl

/-- Only errors in the tokens have a position. -/
def CompileError.shift (n : Nat) : CompileError → CompileError
  | .lex e => .lex (e.shift n)
  | e => e

theorem sourceOf_append (ha : sourceOf a = .ok (.program body)) (hw : IsRun isBlank w)
    (b : String) :
    sourceOf (a ++ w ++ b) =
      ((sourceOf b).map (behind body)).mapError (CompileError.shift (a ++ w).length) := by
  obtain ⟨ts, htokens, hparse⟩ := sourceOf_eq_ok_iff.mp ha
  obtain ⟨body', hprogram, hlinear⟩ := linear_of_parse hparse
  obtain rfl : body = body' := by simpa using hprogram
  rw [sourceOf, sourceOf, tokenize_append htokens hw]
  cases tokenize b with
  | error e => rfl
  | ok us =>
      change (parse (ts ++ us)).mapError CompileError.parse =
        (((parse us).mapError CompileError.parse).map (behind body)).mapError _
      rw [parse_append hlinear]
      cases parse us <;> rfl

/-- One output behind the other, on lines of their own if both have lines. -/
def Text.stacked (x y : String) : String :=
  if x ≠ "" ∧ y ≠ "" then x ++ "\n" ++ y else x ++ y

namespace Expression

theorem output_eq_empty_iff (body : List Expression) : output body = "" ↔ body = [] := by
  constructor
  · intro h
    exact output_injective (h.trans (show "" = output [] from rfl))
  · rintro rfl
    rfl

theorem output_append (as bs : List Expression) :
    output (as ++ bs) = stacked (output as) (output bs) := by
  have hnil : output [] = "" := rfl
  cases as with
  | nil => simp [hnil, stacked]
  | cons a as =>
      cases bs with
      | nil => simp [hnil, stacked]
      | cons b bs =>
          have ha : output (a :: as) ≠ "" := by simp [output_eq_empty_iff]
          have hb : output (b :: bs) ≠ "" := by simp [output_eq_empty_iff]
          rw [stacked, if_pos ⟨ha, hb⟩, output, List.map_append,
            String.intercalate_append_of_ne_nil (by simp) (by simp)]
          rfl

end Expression

open Expression

theorem compile_append_eq {x : String} (ha : compile a = .ok x) (hw : IsRun isBlank w)
    (b : String) :
    compile (a ++ w ++ b) =
      ((compile b).map (stacked x)).mapError (CompileError.shift (a ++ w).length) := by
  obtain ⟨t, hsource, rfl⟩ := compile_eq_ok_iff.mp ha
  obtain ⟨as, rfl, -⟩ := sourceOf_eq_ok_iff_layout.mp hsource
  rw [compile_eq, compile_eq, sourceOf_append hsource hw]
  cases hb : sourceOf b with
  | error e => rfl
  | ok t =>
      obtain ⟨bs, rfl, -⟩ := sourceOf_eq_ok_iff_layout.mp hb
      have hbehind : behind (toSources as) (.program (toSources bs)) =
          .program (toSources (as ++ bs)) := by
        simp [behind, children, toSources_eq_map]
      change Except.ok (behind (toSources as) (.program (toSources bs))).toTarget.text =
        .ok (stacked (Source.program (toSources as)).toTarget.text
          (Source.program (toSources bs)).toTarget.text)
      rw [hbehind, text_toTarget, text_toTarget, text_toTarget, output_append]

/-- Behind a text that compiles, with blanks between, a text is compiled as if it
stood alone: outputs are joined by a line end unless one is empty, an error in
the tree is the same, and an error in the tokens is moved by the characters
before it. -/
theorem compile_append {x : String} (ha : compile a = .ok x) (hw : IsRun isBlank w)
    (b : String) :
    (∀ y, compile b = .ok y → compile (a ++ w ++ b) =
        .ok (if x ≠ "" ∧ y ≠ "" then x ++ "\n" ++ y else x ++ y)) ∧
      (∀ e, compile b = .error (.parse e) → compile (a ++ w ++ b) = .error (.parse e)) ∧
      ∀ e, compile b = .error (.lex e) →
        compile (a ++ w ++ b) = .error (.lex (e.shift (a ++ w).length)) := by
  rw [compile_append_eq ha hw]
  refine ⟨?_, ?_, ?_⟩
  · intro y hb
    rw [hb]
    rfl
  · intro e hb
    rw [hb]
    rfl
  · intro e hb
    rw [hb]
    rfl

/-- A character of two bytes and a blank of three stand before what follows. -/
theorem compile_append_each_way :
    compile "(f \"\u00e9\")" = .ok "f(\"\u00e9\");" ∧ IsRun isBlank "\u3000" ∧
      compile ("(f \"\u00e9\")" ++ "\u3000" ++ "7") = .ok "f(\"\u00e9\");\n7" ∧
      compile ("(f \"\u00e9\")" ++ "\u3000" ++ "\t") = .ok "f(\"\u00e9\");" ∧
      compile ("(f \"\u00e9\")" ++ "\u3000" ++ "7)") =
        .error (.parse (.unexpectedToken ⟨.closing, ")"⟩)) ∧
      compile ("(f \"\u00e9\")" ++ "\u3000" ++ "7 \"") =
        .error (.lex (.unterminatedString 11)) :=
  have ha : compile "(f \"\u00e9\")" = .ok "f(\"\u00e9\");" := by decide +kernel
  have hw : IsRun isBlank "\u3000" := ⟨by decide, List.forall_mem_singleton.mpr rfl⟩
  ⟨ha, hw, (compile_append ha hw "7").1 "7" (by decide +kernel),
    (compile_append ha hw "\t").1 "" (by decide +kernel),
    (compile_append ha hw "7)").2.1 _ (by decide +kernel),
    (compile_append ha hw "7 \"").2.2 (.unterminatedString 3) (by decide +kernel)⟩

end Polish
