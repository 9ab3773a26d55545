import Polish.Proofs.Quotation

/-!
The punctuation of an output.  Strings are written as they stand and may hold
brackets, commas, semicolons and line ends, so nothing can be counted before
the quoted regions are cut out.  In what is left, each call has its two
brackets and the commas between its parameters, and the lines have their ends.

Where these characters may stand is a matter of depth, the number of brackets
that are open.  `nest` reads a text with the depth as its state and stops at a
character that does not belong at its depth.  Expressions nest at every depth
(`nests_bare`) and outputs at depth zero (`nests_unquoted_output`).  How many
there are is put down to the calls of the tree in one count for all of them
(`count_unquoted_output`).
-/

namespace Polish

namespace Text

def depth (s : List Char) : Int :=
  s.count '(' - s.count ')'

/-- The depth behind a character, if it may stand at depth `d`: what closes or
parts parameters stands inside of brackets, and what ends a line outside. -/
def nest (d : Nat) (c : Char) : Option Nat :=
  if c = '(' then some (d + 1)
  else if c = ')' then if 0 < d then some (d - 1) else none
  else if c = ',' then if 0 < d then some d else none
  else if c = ';' ∨ c = '\n' then if d = 0 then some d else none
  else some d

/-- The characters may all stand where they do, from depth `d` on, and lead
back to that depth. -/
def Nests (d : Nat) (s : List Char) : Prop :=
  s.foldlM nest d = some d

variable {d e : Nat} {c : Char} {s t : List Char}

theorem depth_cons (c : Char) (s : List Char) : depth (c :: s) = depth [c] + depth s := by
  simp only [depth, List.count_cons, List.count_nil]
  omega

theorem nest_eq_some (h : nest d c = some e) : (e : Int) = d + depth [c] := by
  unfold nest at h
  split_ifs at h <;> simp_all [depth] <;> omega

theorem foldlM_nest_eq_some (h : s.foldlM nest d = some e) : (e : Int) = d + depth s := by
  induction s generalizing d with
  | nil =>
      obtain rfl : d = e := by simpa using h
      simp [depth]
  | cons c s ih =>
      rw [List.foldlM_cons] at h
      obtain ⟨d', hc, hs⟩ := Option.bind_eq_some_iff.mp h
      have hstep := nest_eq_some hc
      have hrest := ih hs
      have hcons := depth_cons c s
      omega

theorem Nests.depth_eq_zero (h : Nests d s) : depth s = 0 := by
  have := foldlM_nest_eq_some h
  omega

theorem Nests.exists_depth (h : Nests 0 (s ++ t)) :
    ∃ e : Nat, depth s = e ∧ t.foldlM nest e = some 0 := by
  rw [Nests, List.foldlM_append] at h
  obtain ⟨e, hs, ht⟩ := Option.bind_eq_some_iff.mp h
  have hdepth := foldlM_nest_eq_some hs
  exact ⟨e, by omega, ht⟩

theorem Nests.exists_nest (h : Nests 0 (s ++ c :: t)) :
    ∃ e f : Nat, depth s = e ∧ nest e c = some f := by
  obtain ⟨e, hdepth, ht⟩ := h.exists_depth
  rw [List.foldlM_cons] at ht
  obtain ⟨f, hc, -⟩ := Option.bind_eq_some_iff.mp ht
  exact ⟨e, f, hdepth, hc⟩

theorem Nests.depth_comma (h : Nests 0 (s ++ ',' :: t)) : 1 ≤ depth s := by
  obtain ⟨e, f, hdepth, hstep⟩ := h.exists_nest
  have hpos : 0 < e ∧ e = f := by simpa [nest] using hstep
  omega

theorem Nests.depth_lineEnd (hc : c = ';' ∨ c = '\n') (h : Nests 0 (s ++ c :: t)) :
    depth s = 0 := by
  obtain ⟨e, f, hdepth, hstep⟩ := h.exists_nest
  have hzero : e = 0 ∧ e = f := by
    obtain rfl | rfl := hc <;> simpa [nest] using hstep
  omega

theorem nests_nil (d : Nat) : Nests d [] := rfl

theorem Nests.append (hs : Nests d s) (ht : Nests d t) : Nests d (s ++ t) := by
  rw [Nests, List.foldlM_append, hs]
  exact ht

theorem nest_of_plain (hc : c ∉ ['(', ')', ',', ';', '\n']) (d : Nat) : nest d c = some d := by
  simp only [List.mem_cons, List.not_mem_nil, or_false, not_or] at hc
  simp [nest, hc]

theorem nests_of_plain (hs : ∀ c ∈ s, c ∉ ['(', ')', ',', ';', '\n']) (d : Nat) : Nests d s := by
  induction s with
  | nil => exact nests_nil d
  | cons c s ih =>
      rw [List.forall_mem_cons] at hs
      rw [Nests, List.foldlM_cons, nest_of_plain hs.1]
      exact ih hs.2

theorem nests_run {p : Char → Bool} {a : String} (ha : IsRun p a)
    (hp : ['(', ')', ',', ';', '\n'].any p = false) (d : Nat) : Nests d a.toList := by
  refine nests_of_plain (fun c hmem hc => ?_) d
  exact List.any_eq_false.mp hp c hc (ha.2 c hmem)

theorem Nests.bracket (hs : Nests (d + 1) s) : Nests d ('(' :: (s ++ [')'])) := by
  rw [Nests, List.foldlM_cons, nest, if_pos rfl]
  change (s ++ [')']).foldlM nest (d + 1) = some d
  rw [List.foldlM_append, hs]
  rfl

theorem nests_intercalate {sep : List Char} {xs : List (List Char)} (hsep : Nests d sep)
    (hxs : ∀ x ∈ xs, Nests d x) : Nests d (sep.intercalate xs) :=
  intercalate_induction (nests_nil d) (fun _ _ => Nests.append) hsep hxs

theorem count_intercalate (a : Char) (sep : List Char) (xs : List (List Char)) :
    (sep.intercalate xs).count a = total (·.count a) xs + (xs.length - 1) * sep.count a := by
  induction xs with
  | nil => simp
  | cons x xs ih =>
      cases xs with
      | nil => simp
      | cons y xs =>
          rw [List.intercalate_cons_cons, List.count_append, List.count_append, ih]
          simp only [total_cons, List.length_cons, Nat.add_sub_cancel, Nat.succ_mul]
          omega

end Text

namespace Expression

open Text

/-! ### Expressions without their strings -/

/-- What is written for an expression, without the quoted regions. -/
def bare (e : Expression) : List Char :=
  kept outside e.text.toList

theorem bare_number (digits : { s : String // IsRun Char.isDigit s }) :
    bare (number digits) = digits.1.toList :=
  kept_text_number keepsOutside_outside digits

theorem bare_string (content : { s : String // '"' ∉ s.toList }) : bare (string content) = [] := by
  rw [bare, toList_text_string, kept_quoted content.2]
  simp [outside]

theorem bare_call (name : { s : String // IsRun Char.isAlpha s }) (params : List Expression) :
    bare (call name params) =
      name.1.toList ++ '(' :: ([',', ' '].intercalate (params.map bare) ++ [')']) :=
  kept_text_call keepsOutside_outside name params

theorem unquoted_output (body : List Expression) :
    unquoted (output body) = ['\n'].intercalate (body.map fun e => e.bare ++ e.ending) := by
  have hline (e : Expression) : kept outside e.line.toList = e.bare ++ e.ending := by
    rw [kept_line]
    cases e <;> rfl
  rw [unquoted, kept_output keepsOutside_outside, List.map_congr_left fun e _ => hline e]

theorem nests_bare (e : Expression) (d : Nat) : Nests d e.bare := by
  induction e using params_induction generalizing d with
  | number digits =>
      rw [bare_number]
      exact nests_run digits.2 rfl d
  | string content =>
      rw [bare_string]
      exact nests_nil d
  | call name params ih =>
      -- The parameters and the commas between them are one bracket deeper.
      have hinner : Nests (d + 1) ([',', ' '].intercalate (params.map bare)) :=
        nests_intercalate rfl (List.forall_mem_map.mpr fun e he => ih e he (d + 1))
      rw [bare_call]
      exact (nests_run name.2 rfl d).append hinner.bracket

theorem nests_unquoted_output (body : List Expression) : Nests 0 (unquoted (output body)) := by
  rw [unquoted_output]
  refine nests_intercalate rfl (List.forall_mem_map.mpr fun e _ => ?_)
  refine (nests_bare e 0).append ?_
  cases e <;> rfl

section Count

variable {c : Char}

theorem count_run {p : Char → Bool} {a : String} (ha : IsRun p a) (hc : p c = false) :
    a.toList.count c = 0 :=
  List.count_eq_zero.mpr (ha.not_mem hc)

/-- A call brings its two brackets and a separator between any two parameters. -/
def charge (c : Char) (t : Source) : Nat :=
  ['(', ')'].count c + (t.children.length - 1) * [',', ' '].count c

theorem total_charge (hcomma : [',', ' '].count c = 0) (ts : List Source) :
    total (charge c) ts = ts.length * ['(', ')'].count c := by
  rw [← total_const]
  congr 1
  funext t
  rw [charge, hcomma, Nat.mul_zero, Nat.add_zero]

theorem total_count_bare (halpha : c.isAlpha = false) (hdigit : c.isDigit = false)
    (body : List Expression) :
    total (fun e => e.bare.count c) body =
      total (charge c) ((toSources body).flatMap Source.calls) := by
  induction body using list_induction with
  | nil => rfl
  | number digits rest ih =>
      rw [total_cons, ih, bare_number, count_run digits.2 hdigit, toSources, toSource,
        List.flatMap_cons, Source.calls_number, List.nil_append, Nat.zero_add]
  | string content rest ih =>
      rw [total_cons, ih, bare_string, toSources, toSource, List.flatMap_cons,
        Source.calls_string, List.nil_append, List.count_nil, Nat.zero_add]
  | call name params rest ihparams ihrest =>
      have hcount : (bare (call name params)).count c =
          charge c (.call name (toSources params)) +
            total (charge c) ((toSources params).flatMap Source.calls) := by
        rw [bare_call, List.count_append, count_run name.2 halpha, ← ihparams, charge,
          Source.children, toSources_eq_map, List.length_map, List.count_cons, List.count_append,
          count_intercalate, total_map, List.length_map]
        simp only [List.count_cons, List.count_nil]
        omega
      rw [total_cons, ihrest, hcount, toSources, toSource, List.flatMap_cons, Source.calls_call,
        List.cons_append, total_cons, total_append, Nat.add_assoc]

theorem total_count_ending (c : Char) (body : List Expression) :
    total (fun e => e.ending.count c) body =
      (toSources body).countP (·.kind = .callExpression) * [';'].count c := by
  induction body with
  | nil => rw [total_nil, toSources, List.countP_nil, Nat.zero_mul]
  | cons e body ih =>
      rw [total_cons, ih, toSources, List.countP_cons, Nat.add_mul, Nat.add_comm]
      cases e <;> simp [ending, toSource, Source.kind]

/-- The punctuation of an output by what brings it: the calls, the lines that
are calls, and the step from a line to the next. -/
theorem count_unquoted_output (halpha : c.isAlpha = false) (hdigit : c.isDigit = false)
    (body : List Expression) :
    (unquoted (output body)).count c =
      total (charge c) (Source.program (toSources body)).calls +
        (toSources body).countP (·.kind = .callExpression) * [';'].count c +
        (body.length - 1) * ['\n'].count c := by
  have hlines : total (fun e => (e.bare ++ e.ending).count c) body =
      total (fun e => e.bare.count c) body + total (fun e => e.ending.count c) body := by
    rw [← total_add]
    simp only [List.count_append]
  rw [unquoted_output, count_intercalate, total_map, hlines, total_count_bare halpha hdigit,
    total_count_ending, List.length_map, Source.calls_program]

theorem total_count_quote (body : List Expression) :
    total (fun e => e.text.toList.count '"') body =
      2 * (tokensList body).countP (·.kind = .string) := by
  induction body using list_induction with
  | nil => rfl
  | number digits rest ih =>
      rw [total_cons, ih, toList_text_number, count_run digits.2 rfl]
      simp [tokensList, tokens]
  | string content rest ih =>
      have hquotes : ('"' :: (content.1.toList ++ ['"'])).count '"' = 2 := by
        simp [List.count_eq_zero.mpr content.2]
      rw [total_cons, ih, toList_text_string, hquotes]
      simp [tokensList, tokens, Nat.mul_add, Nat.add_comm]
  | call name params rest ihparams ihrest =>
      have hquotes : (text (call name params)).toList.count '"' =
          2 * (tokensList params).countP (·.kind = .string) := by
        rw [toList_text_call, List.count_append, count_run name.2 rfl, List.count_cons,
          List.count_append, count_intercalate, total_map, ihparams]
        simp
      rw [total_cons, ihrest, hquotes]
      simp [tokensList, tokens, Nat.mul_add]

theorem count_quote_output (body : List Expression) :
    (output body).toList.count '"' = 2 * (tokensList body).countP (·.kind = .string) := by
  have hline (e : Expression) : e.line.toList.count '"' = e.text.toList.count '"' := by
    rw [toList_line, List.count_append]
    cases e <;> simp [ending]
  rw [toList_output, count_intercalate, total_map, ← total_count_quote]
  simp only [hline]
  simp

end Count

end Expression

open Text Expression

/-- The characters `rest`, which are left of an output, account for the items of
a program. -/
structure Punctuates (rest : List Char) (body : List Source) : Prop where
  /-- Nothing is closed that is not open. -/
  depth_nonneg : ∀ p, p <+: rest → 0 ≤ depth p
  depth_eq_zero : depth rest = 0
  /-- Each call has one bracket that opens. -/
  openings : rest.count '(' = (Source.program body).calls.length
  /-- Each item that is a call has one semicolon, outside of all brackets. -/
  semicolons : rest.count ';' = body.countP (·.kind = .callExpression)
  depth_semicolon : ∀ p q, rest = p ++ ';' :: q → depth p = 0
  /-- Line ends stand between items. -/
  newlines : rest.count '\n' = body.length - 1
  depth_newline : ∀ p q, rest = p ++ '\n' :: q → depth p = 0
  /-- Commas stand between the parameters of a call, and so inside of brackets. -/
  commas : rest.count ',' =
    total (fun t => t.children.length - 1) (Source.program body).calls
  depth_comma : ∀ p q, rest = p ++ ',' :: q → 1 ≤ depth p

theorem punctuates_output (body : List Expression) :
    Punctuates (unquoted (output body)) (toSources body) := by
  have hnests := nests_unquoted_output body
  constructor
  case depth_nonneg =>
    rintro p ⟨q, hq⟩
    obtain ⟨e, he, -⟩ := (hq ▸ hnests).exists_depth
    omega
  case depth_eq_zero => exact hnests.depth_eq_zero
  case depth_semicolon => exact fun p q h => (h ▸ hnests).depth_lineEnd (.inl rfl)
  case depth_newline => exact fun p q h => (h ▸ hnests).depth_lineEnd (.inr rfl)
  case depth_comma => exact fun p q h => (h ▸ hnests).depth_comma
  case openings =>
    rw [count_unquoted_output rfl rfl, total_charge rfl]
    simp
  case semicolons =>
    rw [count_unquoted_output rfl rfl, total_charge rfl]
    simp
  case newlines =>
    rw [count_unquoted_output rfl rfl, total_charge rfl, toSources_eq_map, List.length_map]
    simp
  case commas =>
    have hcharge : charge ',' = fun t => t.children.length - 1 := by
      funext t
      simp [charge]
    rw [count_unquoted_output rfl rfl, hcharge]
    simp

/-- The punctuation of an output, apart from quoted regions, accounts for the
program, and its quotes account for the strings of the text. -/
theorem compile_punctuation {s out : String} (h : compile s = .ok out) :
    ∃ ts body, tokenize s = .ok ts ∧ parse ts = .ok (.program body) ∧
      Punctuates (unquoted out) body ∧
      out.toList.count '"' = 2 * ts.countP (·.kind = .string) := by
  obtain ⟨body, htokens, hparse, rfl⟩ := exists_expressions_of_compile h
  exact ⟨tokensList body, toSources body, htokens, hparse, punctuates_output body,
    count_quote_output body⟩

/-- A string that holds all of the punctuation, in a call that is followed by
another item. -/
theorem compile_punctuation_quoted :
    compile "(f \";),(\n\" (g)) 7" = .ok "f(\";),(\n\", g());\n7" ∧
      ∃ ts body, tokenize "(f \";),(\n\" (g)) 7" = .ok ts ∧ parse ts = .ok (.program body) ∧
        Punctuates (unquoted "f(\";),(\n\", g());\n7") body ∧
        "f(\";),(\n\", g());\n7".toList.count '"' = 2 * ts.countP (·.kind = .string) :=
  have h : compile "(f \";),(\n\" (g)) 7" = .ok "f(\";),(\n\", g());\n7" := by decide +kernel
  ⟨h, compile_punctuation h⟩

end Polish
