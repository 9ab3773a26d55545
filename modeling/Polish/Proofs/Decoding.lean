import Polish.Proofs.Grammar
import Polish.Proofs.Separated

/-!
The output can be read back.  Strings are written as they stand, with commas,
brackets and line ends in them, but with no quote, so a written string ends at
its second quote.  A written number ends where no digit follows, and a written
call with the bracket that closes it.  Hence what begins with a written
expression begins with no other one (`decodes_text`, `decodes_line`).

The outputs of two programs are therefore equal only if the programs are
(`output_injective`), and texts with one output spell one tree.
-/

namespace Polish

namespace Expression

open Text

def leading : Expression → Token
  | .number digits => ⟨.number, digits⟩
  | .string content => ⟨.string, content⟩
  | .call name _ => ⟨.name, name⟩

def afterLeading : Expression → List Char
  | .call _ params => '(' :: ((", ".intercalate (params.map text)).toList ++ [')'])
  | _ => []

theorem textList_eq_map (body : List Expression) : textList body = body.map text := by
  induction body with
  | nil => rfl
  | cons e body ih => simp [textList, ih]

theorem toList_text (e : Expression) :
    e.text.toList = e.leading.lexeme.toList ++ e.afterLeading := by
  cases e with
  | number digits => simp [text, leading, afterLeading, Token.lexeme]
  | string content => simp [text, leading, afterLeading, Token.lexeme]
  | call name params =>
      simp [text, leading, afterLeading, Token.lexeme, textList_eq_map]

theorem wellFormed_leading (e : Expression) : e.leading.WellFormed := by
  cases e with
  | number digits => exact digits.2
  | string content => exact content.2
  | call name params => exact name.2

theorem stops_afterLeading (e : Expression) {r : List Char} (hr : Stops Char.isDigit r) :
    Stops e.leading.kind.continues (e.afterLeading ++ r) := by
  cases e with
  | number digits => exact hr
  | string content => exact fun _ _ => rfl
  | call name params => simp [leading, afterLeading, TokenKind.continues]

theorem ends_closing (r : List Char) : Ends text ", " (')' :: r) where
  stops := by simp
  no_separator := by simp
  no_member e s h := by
    obtain ⟨c, tail, hlexeme, hc⟩ := (wellFormed_leading e).lexeme_eq_cons
    rw [toList_text, hlexeme, List.cons_append, List.cons_append, List.cons.injEq] at h
    rw [← h.1] at hc
    cases e <;> cases hc

theorem leading_append_inj {e f : Expression} {r t : List Char} (hr : Stops Char.isDigit r)
    (ht : Stops Char.isDigit t) (h : e.text.toList ++ r = f.text.toList ++ t) :
    e.leading = f.leading ∧ e.afterLeading ++ r = f.afterLeading ++ t := by
  rw [toList_text, toList_text, List.append_assoc, List.append_assoc] at h
  exact Token.lexeme_append_inj (wellFormed_leading e) (wellFormed_leading f)
    (stops_afterLeading e hr) (stops_afterLeading f ht) h

theorem decodes_number (digits : { s : String // IsRun Char.isDigit s }) :
    Decodes text (number digits) := by
  intro f r t hr ht h
  obtain ⟨hleading, hrest⟩ := leading_append_inj hr ht h
  cases f with
  | number digits' =>
      obtain rfl : digits = digits' := Subtype.ext (congrArg Token.text hleading)
      exact ⟨rfl, hrest⟩
  | string content => cases congrArg Token.kind hleading
  | call name params => cases congrArg Token.kind hleading

theorem decodes_string (content : { s : String // '"' ∉ s.toList }) :
    Decodes text (string content) := by
  intro f r t hr ht h
  obtain ⟨hleading, hrest⟩ := leading_append_inj hr ht h
  cases f with
  | number digits => cases congrArg Token.kind hleading
  | string content' =>
      obtain rfl : content = content' := Subtype.ext (congrArg Token.text hleading)
      exact ⟨rfl, hrest⟩
  | call name params => cases congrArg Token.kind hleading

theorem decodes_call (name : { s : String // IsRun Char.isAlpha s }) {params : List Expression}
    (hparams : ∀ e ∈ params, Decodes text e) :
    Decodes text (call name params) := by
  intro f r t hr ht h
  obtain ⟨hleading, hrest⟩ := leading_append_inj hr ht h
  cases f with
  | number digits => cases congrArg Token.kind hleading
  | string content => cases congrArg Token.kind hleading
  | call name' params' =>
      obtain rfl : name = name' := Subtype.ext (congrArg Token.text hleading)
      -- No parameter begins with the bracket, so it ends both lists of parameters.
      have hlists : (", ".intercalate (params.map text)).toList ++ ')' :: r =
          (", ".intercalate (params'.map text)).toList ++ ')' :: t := by
        simpa [afterLeading] using hrest
      obtain ⟨rfl, hend⟩ :=
        intercalate_append_inj (by simp) hparams (ends_closing r) (ends_closing t) hlists
      exact ⟨rfl, (List.cons.inj hend).2⟩

theorem decodes_text (body : List Expression) : ∀ e ∈ body, Decodes text e := by
  induction body using list_induction with
  | nil => simp
  | number digits rest ih => exact List.forall_mem_cons.mpr ⟨decodes_number digits, ih⟩
  | string content rest ih => exact List.forall_mem_cons.mpr ⟨decodes_string content, ih⟩
  | call name params rest ihparams ihrest =>
      exact List.forall_mem_cons.mpr ⟨decodes_call name ihparams, ihrest⟩

/-- What a line has after the expression. -/
def ending : Expression → List Char
  | .call _ _ => [';']
  | _ => []

theorem toList_line (e : Expression) : e.line.toList = e.text.toList ++ e.ending := by
  cases e <;> simp [line, ending]

theorem stops_ending_append (e : Expression) {r : List Char} (hr : Stops Char.isDigit r) :
    Stops Char.isDigit (e.ending ++ r) := by
  cases e with
  | number digits => exact hr
  | string content => exact hr
  | call name params => simp [ending]

theorem decodes_line (e : Expression) : Decodes line e := by
  intro f r t hr ht h
  rw [toList_line, toList_line, List.append_assoc, List.append_assoc] at h
  have htext : Decodes text e := decodes_text [e] e (List.mem_singleton_self e)
  obtain ⟨rfl, hrest⟩ := htext f _ _ (stops_ending_append e hr) (stops_ending_append f ht) h
  exact ⟨rfl, List.append_cancel_left hrest⟩

/-- No line is empty, so the end of the output ends the program. -/
theorem ends_nil : Ends line "\n" [] where
  stops := stops_nil _
  no_separator := by simp
  no_member e s h := by
    obtain ⟨c, tail, hlexeme, -⟩ := (wellFormed_leading e).lexeme_eq_cons
    rw [toList_line, toList_text, hlexeme] at h
    cases h

theorem output_injective {b₁ b₂ : List Expression} (h : output b₁ = output b₂) : b₁ = b₂ := by
  have hlines : (output b₁).toList ++ [] = (output b₂).toList ++ [] := by rw [h]
  exact (intercalate_append_inj (by simp) (fun e _ => decodes_line e) ends_nil ends_nil hlines).1

end Expression

open Expression

/-- Texts that compile have one output exactly if their tokens are read as one
tree. -/
theorem compile_eq_compile_iff {s₁ s₂ out₁ out₂ : String} (h₁ : compile s₁ = .ok out₁)
    (h₂ : compile s₂ = .ok out₂) :
    ∃ ts₁ ts₂, tokenize s₁ = .ok ts₁ ∧ tokenize s₂ = .ok ts₂ ∧
      (compile s₁ = compile s₂ ↔ parse ts₁ = parse ts₂) := by
  obtain ⟨t₁, hsource₁, rfl⟩ := compile_eq_ok_iff.mp h₁
  obtain ⟨t₂, hsource₂, rfl⟩ := compile_eq_ok_iff.mp h₂
  obtain ⟨ts₁, htokens₁, hparse₁⟩ := sourceOf_eq_ok_iff.mp hsource₁
  obtain ⟨ts₂, htokens₂, hparse₂⟩ := sourceOf_eq_ok_iff.mp hsource₂
  refine ⟨ts₁, ts₂, htokens₁, htokens₂, ?_⟩
  rw [h₁, h₂, hparse₁, hparse₂]
  constructor
  · intro hout
    obtain ⟨b₁, rfl, -⟩ := sourceOf_eq_ok_iff_layout.mp hsource₁
    obtain ⟨b₂, rfl, -⟩ := sourceOf_eq_ok_iff_layout.mp hsource₂
    rw [text_toTarget, text_toTarget, Except.ok.injEq] at hout
    rw [output_injective hout]
  · intro htrees
    rw [Except.ok.inj htrees]

/-- The content of a string looks like the end of a call and the start of the
next argument. -/
theorem compile_eq_compile_iff_quoted :
    compile "(f \"x), (y\" 1)" = .ok "f(\"x), (y\", 1);" ∧
      compile " ( f\"x), (y\"1 )\n" = .ok "f(\"x), (y\", 1);" ∧
      ∃ ts₁ ts₂, tokenize "(f \"x), (y\" 1)" = .ok ts₁ ∧
        tokenize " ( f\"x), (y\"1 )\n" = .ok ts₂ ∧
        (compile "(f \"x), (y\" 1)" = compile " ( f\"x), (y\"1 )\n" ↔ parse ts₁ = parse ts₂) :=
  have h₁ : compile "(f \"x), (y\" 1)" = .ok "f(\"x), (y\", 1);" := by decide +kernel
  have h₂ : compile " ( f\"x), (y\"1 )\n" = .ok "f(\"x), (y\", 1);" := by decide +kernel
  ⟨h₁, h₂, compile_eq_compile_iff h₁ h₂⟩

end Polish
