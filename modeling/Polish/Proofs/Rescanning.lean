import Polish.Proofs.Quotation

/-!
Outputs as texts.  Commas and semicolons begin no token, so an output with a
call in it has no tokens.  Without those that stand outside of its strings it
does: the blank behind each comma and the end of each line still keep
neighbours apart, and strings are written as they were read.

The tokens of an expression as it is written (`written`) differ from those it
is read from only in that the name of a call stands before its bracket.  So
whatever kind of token one looks at, if it leaves out names or brackets, the
two give the same (`filter_writtenList`).
-/

namespace Polish

open Text

theorem scans_lexeme {t : Token} (ht : t.WellFormed) : Scans t.lexeme.toList [t] := by
  have hscans : Scans (t.lexeme.toList ++ []) [t] := .token ht (stops_nil _) .nil
  rwa [List.append_nil] at hscans

theorem scans_intercalate {α : Type} {blank : Char} (hblank : isBlank blank = true)
    {write : α → List Char} {tokens : α → List Token} {as : List α}
    (h : ∀ a ∈ as, Scans (write a) (tokens a)) :
    Scans ([blank].intercalate (as.map write)) (as.flatMap tokens) := by
  induction as with
  | nil => exact .nil
  | cons a as ih =>
      rw [List.forall_mem_cons] at h
      cases as with
      | nil => simpa using h.1
      | cons b as =>
          have hsep : Separate (blank :: [blank].intercalate ((b :: as).map write)) :=
            separate_cons_of_ofFirst?_eq_none (TokenKind.ofFirst?_of_isBlank hblank)
          have hscans := h.1.append hsep (.blank hblank (ih h.2))
          simpa [List.intercalate_cons_cons] using hscans

def Token.isBracket (t : Token) : Bool :=
  t.kind = .opening ∨ t.kind = .closing

namespace Expression

mutual

/-- The tokens of an expression as it is written in the output. -/
def written : Expression → List Token
  | .number digits => [⟨.number, digits⟩]
  | .string content => [⟨.string, content⟩]
  | .call name params =>
      ⟨.name, name⟩ :: ⟨.opening, "("⟩ :: (writtenList params ++ [⟨.closing, ")"⟩])

def writtenList : List Expression → List Token
  | [] => []
  | e :: es => e.written ++ writtenList es

end

theorem writtenList_eq_flatMap (body : List Expression) :
    writtenList body = body.flatMap written := by
  induction body with
  | nil => rfl
  | cons e body ih => rw [writtenList, ih, List.flatMap_cons]

/-- The tokens that are read and those that are written give the same, if of
names and opening brackets at most one is looked at. -/
theorem filter_writtenList {p : Token → Bool}
    (hp : p ⟨.opening, "("⟩ = false ∨ ∀ name, p ⟨.name, name⟩ = false) (body : List Expression) :
    (writtenList body).filter p = (tokensList body).filter p := by
  induction body using list_induction with
  | nil => rfl
  | number digits rest ih =>
      rw [writtenList, written, tokensList, tokens, List.filter_append, ih, List.filter_append]
  | string content rest ih =>
      rw [writtenList, written, tokensList, tokens, List.filter_append, ih, List.filter_append]
  | call name params rest ihparams ihrest =>
      have hswap : [⟨.name, name.1⟩, ⟨.opening, "("⟩].filter p =
          [⟨.opening, "("⟩, ⟨.name, name.1⟩].filter p := by
        obtain hopening | hname := hp
        · simp [List.filter_cons, hopening]
        · simp [List.filter_cons, hname]
      have hsplit (t u : Token) (ts : List Token) : t :: u :: ts = [t, u] ++ ts := rfl
      rw [writtenList, written, tokensList, tokens, hsplit, hsplit ⟨.opening, "("⟩]
      simp only [List.filter_append, hswap, ihparams, ihrest]

theorem countP_writtenList {p : Token → Bool} (hp : ∀ name, p ⟨.name, name⟩ = false)
    (body : List Expression) : (writtenList body).countP p = (tokensList body).countP p := by
  rw [List.countP_eq_length_filter, filter_writtenList (.inr hp), List.countP_eq_length_filter]

/-- What is written for an expression, without the commas outside of strings. -/
def spaced (e : Expression) : List Char :=
  kept noSeparator e.text.toList

theorem spaced_number (digits : { s : String // IsRun Char.isDigit s }) :
    spaced (number digits) = digits.1.toList :=
  kept_text_number keepsOutside_noSeparator digits

theorem spaced_string (content : { s : String // '"' ∉ s.toList }) :
    spaced (string content) = '"' :: (content.1.toList ++ ['"']) := by
  rw [spaced, toList_text_string, kept_quoted content.2]
  simp [noSeparator]

theorem spaced_call (name : { s : String // IsRun Char.isAlpha s }) (params : List Expression) :
    spaced (call name params) =
      name.1.toList ++ '(' :: ([' '].intercalate (params.map spaced) ++ [')']) :=
  kept_text_call keepsOutside_noSeparator name params

theorem toList_unpunctuated_output (body : List Expression) :
    (unpunctuated (output body)).toList = ['\n'].intercalate (body.map spaced) := by
  rw [unpunctuated, String.toList_ofList, kept_output keepsOutside_noSeparator]
  congr 1
  refine List.map_congr_left fun e _ => ?_
  rw [kept_line, spaced]
  cases e <;> exact List.append_nil _

theorem scans_spaced (e : Expression) : Scans e.spaced e.written := by
  induction e using params_induction with
  | number digits =>
      rw [spaced_number, written]
      exact scans_lexeme (t := ⟨.number, digits⟩) digits.2
  | string content =>
      have hscans := scans_lexeme (t := ⟨.string, content⟩) content.2
      rw [spaced_string, written]
      simpa [Token.lexeme] using hscans
  | call name params ih =>
      have hparams : Scans ([' '].intercalate (params.map spaced)) (writtenList params) := by
        rw [writtenList_eq_flatMap]
        exact scans_intercalate rfl ih
      -- No token goes on with a bracket, so each of them ends what stands before it.
      have hsep : Separate [')'] := by
        intro k
        rw [stops_cons]
        cases k <;> rfl
      have hinner := hparams.append hsep (scans_lexeme (t := ⟨.closing, ")"⟩) rfl)
      have hbrackets := Scans.token (t := ⟨.opening, "("⟩) rfl (fun _ _ => rfl) hinner
      rw [spaced_call, written]
      exact .token (t := ⟨.name, name⟩) name.2 (stops_cons.mpr rfl) hbrackets

theorem tokenize_unpunctuated_output (body : List Expression) :
    tokenize (unpunctuated (output body)) = .ok (writtenList body) := by
  apply tokenize_of_scans
  rw [toList_unpunctuated_output, writtenList_eq_flatMap]
  exact scans_intercalate rfl fun e _ => scans_spaced e

end Expression

open Expression

/-- Nothing is lost, doubled or moved between a text and its output.  Without
the commas and semicolons outside of strings, the output has the names, numbers
and strings of the text in their order, and as many brackets of either kind. -/
theorem tokenize_unpunctuated {s out : String} (h : compile s = .ok out) :
    ∃ ts us, tokenize s = .ok ts ∧ tokenize (unpunctuated out) = .ok us ∧
      us.filter (!·.isBracket) = ts.filter (!·.isBracket) ∧
      us.countP (·.kind = .opening) = ts.countP (·.kind = .opening) ∧
      us.countP (·.kind = .closing) = ts.countP (·.kind = .closing) := by
  obtain ⟨body, htokens, -, rfl⟩ := exists_expressions_of_compile h
  refine ⟨tokensList body, writtenList body, htokens, tokenize_unpunctuated_output body, ?_, ?_, ?_⟩
  · exact filter_writtenList (.inl rfl) body
  · exact countP_writtenList (fun _ => rfl) body
  · exact countP_writtenList (fun _ => rfl) body

/-- Numbers with nothing but a comma or a line between them, and a string that
holds what is deleted elsewhere. -/
theorem tokenize_unpunctuated_quoted :
    compile "(f 1 2\",;\"(g))3 4" = .ok "f(1, 2, \",;\", g());\n3\n4" ∧
      ∃ ts us, tokenize "(f 1 2\",;\"(g))3 4" = .ok ts ∧
        tokenize (unpunctuated "f(1, 2, \",;\", g());\n3\n4") = .ok us ∧
        us.filter (!·.isBracket) = ts.filter (!·.isBracket) ∧
        us.countP (·.kind = .opening) = ts.countP (·.kind = .opening) ∧
        us.countP (·.kind = .closing) = ts.countP (·.kind = .closing) :=
  have h : compile "(f 1 2\",;\"(g))3 4" = .ok "f(1, 2, \",;\", g());\n3\n4" := by decide +kernel
  ⟨h, tokenize_unpunctuated h⟩

end Polish
