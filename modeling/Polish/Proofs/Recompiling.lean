import Polish.Proofs.Punctuation
import Polish.Proofs.Rescanning

/-!
Outputs compiled once more.

A scanner passes quoted regions as a whole, and outside of them it passes blanks
and the characters that tokens are made of.  A comma or a semicolon outside of
quoted regions is neither, so a scan goes no further than the first of them
(`Scans.admits`).  In an output nothing else can stop it: its quoted regions end,
and all other characters outside of them can be read (`admits_output`).

Hence an output with a call in it is refused at its first comma or semicolon.
An output without calls has a literal on each line, which is again a text of the
same program.
-/

namespace Polish

namespace Text

/-- No quoted region goes on behind these characters, and outside of quoted
regions they all have a property. -/
structure Admits (P : Char → Prop) (s : List Char) : Prop where
  closed : Closed s
  outside : ∀ c, (c, false) ∈ marked false s → P c

variable {P Q : Char → Prop} {s t : List Char}

theorem admits_nil (P : Char → Prop) : Admits P [] := ⟨closed_nil, by simp [marked]⟩

theorem Admits.append (hs : Admits P s) (ht : Admits P t) : Admits P (s ++ t) where
  closed := hs.closed.append ht.closed
  outside c hc := by
    rw [hs.closed, List.mem_append] at hc
    exact hc.elim (hs.outside c) (ht.outside c)

theorem admits_of_not_mem (hquote : '"' ∉ s) (hs : ∀ c ∈ s, P c) : Admits P s where
  closed := closed_of_not_mem hquote
  outside c hc := by
    rw [marked_of_not_mem hquote] at hc
    exact hs c (by simpa using hc)

theorem admits_quoted (hs : '"' ∉ s) : Admits P ('"' :: (s ++ ['"'])) where
  closed := closed_quoted hs
  outside c hc := by
    have hmarked := marked_quoted_append hs []
    rw [marked, List.append_nil] at hmarked
    rw [hmarked] at hc
    simp at hc

theorem Admits.mono (hs : Admits P s) (hPQ : ∀ c, P c → Q c) : Admits Q s :=
  ⟨hs.closed, fun c hc => hPQ c (hs.outside c hc)⟩

theorem admits_intercalate {sep : List Char} {xs : List (List Char)} (hsep : Admits P sep)
    (hxs : ∀ x ∈ xs, Admits P x) : Admits P (sep.intercalate xs) :=
  intercalate_induction (admits_nil P) (fun _ _ => Admits.append) hsep hxs

theorem length_marked (inside : Bool) (s : List Char) : (marked inside s).length = s.length := by
  induction s generalizing inside with
  | nil => rfl
  | cons c s ih =>
      rw [marked]
      split <;> simp [ih]

theorem not_closed_of_not_mem (hs : '"' ∉ s) : ¬ Closed ('"' :: s) := by
  intro hclosed
  have h := hclosed ['x']
  rw [List.cons_append, marked, if_pos rfl, marked, if_pos rfl, Bool.not_false,
    marked_append_of_not_mem hs, marked_of_not_mem hs, List.cons_append] at h
  simp [marked] at h

theorem Closed.of_append (hs : Closed s) (h : Closed (s ++ t)) : Closed t := by
  intro r
  have happend := h r
  rw [List.append_assoc, hs, hs, List.append_assoc] at happend
  exact List.append_cancel_left happend

/-- A blank, or a character that a token begins with. -/
def IsReadable (c : Char) : Prop :=
  isBlank c = true ∨ TokenKind.ofFirst? c ≠ none

/-- The characters that are written between the parts of an output and at the
end of its statements. -/
def IsSeparator (c : Char) : Prop :=
  c = ',' ∨ c = ';'

theorem not_isReadable_of_isSeparator {c : Char} (h : IsSeparator c) : ¬ IsReadable c := by
  rintro (hblank | hfirst)
  · rcases h with rfl | rfl <;> cases hblank
  · rcases h with rfl | rfl <;> exact hfirst rfl

theorem admits_run {p : Char → Bool} {a : String} (ha : IsRun p a) (hquote : p '"' = false)
    (hp : ∀ c, p c = true → TokenKind.ofFirst? c ≠ none) : Admits IsReadable a.toList :=
  admits_of_not_mem (ha.not_mem hquote) fun c hc => .inr (hp c (ha.2 c hc))

theorem admits_digits {a : String} (ha : IsRun Char.isDigit a) : Admits IsReadable a.toList :=
  admits_run ha rfl fun c hc => by simp [TokenKind.ofFirst?_of_isDigit hc]

theorem admits_letters {a : String} (ha : IsRun Char.isAlpha a) : Admits IsReadable a.toList :=
  admits_run ha rfl fun c hc => by simp [TokenKind.ofFirst?_of_isAlpha hc]

theorem admits_singleton {c : Char} (hquote : c ≠ '"') (hc : P c) : Admits P [c] :=
  admits_of_not_mem (by simpa using Ne.symm hquote) (by simpa using hc)

end Text

open Text

theorem Token.WellFormed.admits {t : Token} (ht : t.WellFormed) :
    Admits IsReadable t.lexeme.toList := by
  obtain ⟨kind, text⟩ := t
  cases kind with
  | opening =>
      obtain rfl : text = "(" := ht
      exact admits_singleton (by decide) (.inr (by decide))
  | closing =>
      obtain rfl : text = ")" := ht
      exact admits_singleton (by decide) (.inr (by decide))
  | number => exact admits_digits ht
  | name => exact admits_letters ht
  | string =>
      have hlexeme : (Token.lexeme ⟨.string, text⟩).toList = '"' :: (text.toList ++ ['"']) := by
        simp [lexeme]
      rw [hlexeme]
      exact admits_quoted ht

theorem Scans.admits {s : List Char} {ts : List Token} (h : Scans s ts) : Admits IsReadable s := by
  induction h with
  | nil => exact admits_nil _
  | @blank c s ts hc _ ih =>
      have hquote : c ≠ '"' := by
        rintro rfl
        cases hc
      exact (admits_singleton hquote (.inl hc)).append ih
  | token ht _ _ ih => exact ht.admits.append ih

namespace Expression

theorem admits_text (e : Expression) :
    Admits (fun c => IsReadable c ∨ IsSeparator c) e.text.toList := by
  induction e using params_induction with
  | number digits =>
      rw [toList_text_number]
      exact (admits_digits digits.2).mono fun c => .inl
  | string content =>
      rw [toList_text_string]
      exact admits_quoted content.2
  | call name params ih =>
      have hname := (admits_letters name.2).mono fun c => Or.inl (b := IsSeparator c)
      have hcomma : Admits (fun c => IsReadable c ∨ IsSeparator c) ([','] ++ [' ']) :=
        (admits_singleton (by decide) (.inr (.inl rfl))).append
          (admits_singleton (by decide) (.inl (.inl rfl)))
      have hparams := admits_intercalate hcomma (List.forall_mem_map.mpr ih)
      have hopen : Admits (fun c => IsReadable c ∨ IsSeparator c) ['('] :=
        admits_singleton (by decide) (.inl (.inr (by decide)))
      have hclose : Admits (fun c => IsReadable c ∨ IsSeparator c) [')'] :=
        admits_singleton (by decide) (.inl (.inr (by decide)))
      rw [toList_text_call]
      exact hname.append (hopen.append (hparams.append hclose))

theorem admits_output (body : List Expression) :
    Admits (fun c => IsReadable c ∨ IsSeparator c) (output body).toList := by
  have hnewline : Admits (fun c => IsReadable c ∨ IsSeparator c) ['\n'] :=
    admits_singleton (by decide) (.inl (.inl rfl))
  rw [toList_output]
  refine admits_intercalate hnewline (List.forall_mem_map.mpr fun e _ => ?_)
  rw [toList_line]
  refine (admits_text e).append ?_
  cases e with
  | number digits => exact admits_nil _
  | string content => exact admits_nil _
  | call name params => exact admits_singleton (by decide) (.inr (.inr rfl))

theorem semicolon_mem_marked_output {body : List Expression}
    (h : ∃ t ∈ toSources body, t.kind = .callExpression) :
    (';', false) ∈ marked false (output body).toList := by
  have hcount : 0 < (unquoted (output body)).count ';' := by
    rw [(punctuates_output body).semicolons, List.countP_pos_iff]
    simpa using h
  obtain ⟨m, hm, hchar⟩ := List.mem_map.mp (List.count_pos_iff.mp hcount)
  obtain ⟨hmem, houtside⟩ := List.mem_filter.mp hm
  have hm : m = (';', false) := Prod.ext hchar (by simpa [outside] using houtside)
  rwa [hm] at hmem

theorem tokensList_eq_flatMap (body : List Expression) : tokensList body = body.flatMap tokens := by
  induction body with
  | nil => rfl
  | cons e body ih => rw [tokensList, ih, List.flatMap_cons]

theorem scans_output_of_literals {body : List Expression}
    (h : ∀ t ∈ toSources body, t.kind ≠ .callExpression) :
    Scans (output body).toList (tokensList body) := by
  rw [toSources_eq_map, List.forall_mem_map] at h
  rw [toList_output, tokensList_eq_flatMap]
  refine scans_intercalate rfl fun e he => ?_
  cases e with
  | number digits => exact scans_lexeme (t := ⟨.number, digits⟩) digits.2
  | string content => exact scans_lexeme (t := ⟨.string, content⟩) content.2
  | call name params => exact absurd rfl (h _ he)

end Expression

open Expression

/-! ### Where an output is refused -/

/-- The first comma or semicolon outside of quoted regions is `c`, and it is the
character with the number `p` in the text, counted from one. -/
def Text.FirstSeparator (s : String) (c : Char) (p : Nat) : Prop :=
  ∃ before after, marked false s.toList = before ++ (c, false) :: after ∧ IsSeparator c ∧
    (∀ m ∈ before, noSeparator m = true) ∧ p = before.length + 1

theorem Scans.noSeparator {s : List Char} {ts : List Token} (h : Scans s ts) :
    ∀ m ∈ marked false s, noSeparator m = true := by
  rintro ⟨c, inside⟩ hm
  cases inside with
  | true => rfl
  | false =>
      have hsep : ¬ IsSeparator c :=
        fun hsep => not_isReadable_of_isSeparator hsep (h.admits.outside c hm)
      rw [IsSeparator, not_or] at hsep
      simp [Text.noSeparator, hsep]

/-- An output that has a separator is refused at the first one. -/
theorem tokenize_output_of_separator {body : List Expression} {d : Char} (hd : IsSeparator d)
    (hmem : (d, false) ∈ marked false (output body).toList) :
    ∃ c p, FirstSeparator (output body) c p ∧
      tokenize (output body) = .error (.unexpectedCharacter c p) := by
  have hadmits := admits_output body
  cases htokens : tokenize (output body) with
  | ok ts =>
      have hkept := (scans_of_tokenize htokens).noSeparator _ hmem
      rcases hd with rfl | rfl <;> cases hkept
  | error e =>
      obtain ⟨p, r, ts, hsplit, hscans, hfault⟩ := tokenize_eq_error_iff.mp htokens
      have hmarked : marked false (p ++ r) = marked false p ++ marked false r :=
        hscans.admits.closed r
      rw [hsplit] at hadmits
      cases hfault with
      | @strange c r hblank hfirst =>
          have hquote : c ≠ '"' := by
            rintro rfl
            cases hfirst
          have hhead : marked false (c :: r) = (c, false) :: marked false r := by
            rw [marked, if_neg hquote]
          have hsep : IsSeparator c := by
            have hc : (c, false) ∈ marked false (p ++ c :: r) := by
              rw [hmarked, hhead]
              simp
            refine (hadmits.outside c hc).resolve_left ?_
            rintro (hblank' | hfirst')
            · rw [hblank] at hblank'
              cases hblank'
            · exact hfirst' hfirst
          refine ⟨c, p.length + 1,
            ⟨marked false p, marked false r, ?_, hsep, hscans.noSeparator, ?_⟩, rfl⟩
          · rw [hsplit, hmarked, hhead]
          · rw [length_marked]
      | @endless r hr =>
          -- The quoted regions of an output all end.
          exact absurd (hscans.admits.closed.of_append hadmits.closed) (not_closed_of_not_mem hr)

/-- An output compiles to itself if no item of the program is a call.  Otherwise
it is refused, at the first comma or semicolon outside of its strings. -/
theorem compile_output {s out : String} (h : compile s = .ok out) :
    ∃ ts body, tokenize s = .ok ts ∧ parse ts = .ok (.program body) ∧
      ((∀ t ∈ body, t.kind ≠ .callExpression) → compile out = .ok out) ∧
      ((∃ t ∈ body, t.kind = .callExpression) →
        ∃ c p, FirstSeparator out c p ∧
          compile out = .error (.lex (.unexpectedCharacter c p))) := by
  obtain ⟨body, htokens, hparse, rfl⟩ := exists_expressions_of_compile h
  refine ⟨tokensList body, toSources body, htokens, hparse, ?_, ?_⟩
  · intro hliterals
    have hagain := tokenize_of_scans (scans_output_of_literals hliterals)
    rw [compile_eq_ok_iff]
    exact ⟨_, sourceOf_eq_ok_iff.mpr ⟨_, hagain, hparse⟩, text_toTarget body⟩
  · intro hcall
    obtain ⟨c, p, hfirst, herror⟩ :=
      tokenize_output_of_separator (.inr rfl) (semicolon_mem_marked_output hcall)
    refine ⟨c, p, hfirst, ?_⟩
    rw [compile_eq_error_iff, sourceOf_eq_error_iff]
    exact .inl ⟨_, herror, rfl⟩

/-- Two literals are kept; behind a call, the comma in the string is passed and
the next one is not. -/
theorem compile_output_each_way :
    (compile "1\",\"" = .ok "1\n\",\"" ∧ compile "1\n\",\"" = .ok "1\n\",\"") ∧
      compile "(f \",\" 2)" = .ok "f(\",\", 2);" ∧
      ∃ c p, FirstSeparator "f(\",\", 2);" c p ∧
        compile "f(\",\", 2);" = .error (.lex (.unexpectedCharacter c p)) := by
  have hliterals : compile "1\",\"" = .ok "1\n\",\"" := by decide +kernel
  have hcall : compile "(f \",\" 2)" = .ok "f(\",\", 2);" := by decide +kernel
  refine ⟨⟨hliterals, ?_⟩, hcall, ?_⟩
  · have hts : tokenize "1\",\"" = .ok [⟨.number, "1"⟩, ⟨.string, ","⟩] := by decide +kernel
    obtain ⟨ts, body, htokens, hparse, hsame, -⟩ := compile_output hliterals
    cases hts.symm.trans htokens
    cases (parse_of_linear (.number (.string .nil))).symm.trans hparse
    exact hsame (by decide)
  · have hts : tokenize "(f \",\" 2)" = .ok [⟨.opening, "("⟩, ⟨.name, "f"⟩, ⟨.string, ","⟩,
        ⟨.number, "2"⟩, ⟨.closing, ")"⟩] := by decide +kernel
    obtain ⟨ts, body, htokens, hparse, -, hrefused⟩ := compile_output hcall
    cases hts.symm.trans htokens
    cases (parse_of_linear (.call (.string (.number .nil)) .nil)).symm.trans hparse
    exact hrefused (by decide)

end Polish
