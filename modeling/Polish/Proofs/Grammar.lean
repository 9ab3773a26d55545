import Polish.Proofs.Layout
import Polish.Proofs.Stages

/-!
The language that is compiled, said without the compiler.  An expression is a
number, a string or a call, with texts that carry the proof that they can be
written as such.  A text of a program is any layout of the tokens of its
expressions, and its output has one line for each of them.

`sourceOf_eq_ok_iff_layout` says that the trees which texts spell are the
expressions of this language, each text spelling the expressions it is a layout
of.  Lowering and writing such a tree gives `output` (`text_toTarget`), and
the two together say what compiling does on every text that compiles.
-/

namespace Polish

inductive Expression
  | number (digits : { s : String // Text.IsRun Char.isDigit s })
  | string (content : { s : String // '"' ∉ s.toList })
  | call (name : { s : String // Text.IsRun Char.isAlpha s }) (params : List Expression)

namespace Expression

@[elab_as_elim] theorem list_induction {motive : List Expression → Prop} (nil : motive [])
    (number : ∀ digits rest, motive rest → motive (.number digits :: rest))
    (string : ∀ content rest, motive rest → motive (.string content :: rest))
    (call : ∀ name params rest, motive params → motive rest →
      motive (.call name params :: rest)) (body : List Expression) : motive body :=
  match body with
  | [] => nil
  | .number digits :: rest => number digits rest (list_induction nil number string call rest)
  | .string content :: rest => string content rest (list_induction nil number string call rest)
  | .call name params :: rest =>
      call name params rest (list_induction nil number string call params)
        (list_induction nil number string call rest)
termination_by sizeOf body

@[elab_as_elim] theorem params_induction {motive : Expression → Prop}
    (number : ∀ digits, motive (.number digits)) (string : ∀ content, motive (.string content))
    (call : ∀ name params, (∀ e ∈ params, motive e) → motive (.call name params))
    (e : Expression) : motive e := by
  have hlist (body : List Expression) : ∀ e ∈ body, motive e := by
    induction body using list_induction with
    | nil => simp
    | number digits rest ih => exact List.forall_mem_cons.mpr ⟨number digits, ih⟩
    | string content rest ih => exact List.forall_mem_cons.mpr ⟨string content, ih⟩
    | call name params rest ihparams ihrest =>
        exact List.forall_mem_cons.mpr ⟨call name params ihparams, ihrest⟩
  exact hlist [e] e (List.mem_singleton_self e)

mutual

def tokens : Expression → List Token
  | .number digits => [⟨.number, digits⟩]
  | .string content => [⟨.string, content⟩]
  | .call name params =>
      ⟨.opening, "("⟩ :: ⟨.name, name⟩ :: (tokensList params ++ [⟨.closing, ")"⟩])

def tokensList : List Expression → List Token
  | [] => []
  | e :: es => e.tokens ++ tokensList es

end

mutual

def text : Expression → String
  | .number digits => digits
  | .string content => "\"" ++ content ++ "\""
  | .call name params => name ++ "(" ++ String.intercalate ", " (textList params) ++ ")"

def textList : List Expression → List String
  | [] => []
  | e :: es => e.text :: textList es

end

/-- The line of an expression that stands in a program: a call ends in a
semicolon. -/
def line : Expression → String
  | .call name params => text (.call name params) ++ ";"
  | e => e.text

/-- The output of a program: the lines of its expressions. -/
def output (body : List Expression) : String :=
  String.intercalate "\n" (body.map line)

mutual

def toSource : Expression → Source
  | .number digits => .number digits
  | .string content => .string content
  | .call name params => .call name (toSources params)

def toSources : List Expression → List Source
  | [] => []
  | e :: es => e.toSource :: toSources es

end

theorem wellFormed_of_mem_tokensList (body : List Expression) :
    ∀ t ∈ tokensList body, t.WellFormed := by
  induction body using list_induction with
  | nil => simp [tokensList]
  | number digits rest ih => simpa [tokensList, tokens] using ⟨digits.2, ih⟩
  | string content rest ih => simpa [tokensList, tokens] using ⟨content.2, ih⟩
  | call name params rest ihparams ihrest =>
      simp only [tokensList, tokens, List.cons_append, List.forall_mem_cons, List.forall_mem_append]
      exact ⟨rfl, name.2, ⟨ihparams, rfl, by simp⟩, ihrest⟩

theorem linear_toSources (body : List Expression) :
    Source.Linear (toSources body) (tokensList body) := by
  induction body using list_induction with
  | nil => exact .nil
  | number digits rest ih => exact .number ih
  | string content rest ih => exact .string ih
  | call name params rest ihparams ihrest =>
      simpa [tokensList, tokens, toSources, toSource] using Source.Linear.call ihparams ihrest

/-- Well-formed tokens spell expressions only. -/
theorem exists_of_linear {trees : List Source} {ts : List Token} (h : Source.Linear trees ts)
    (hts : ∀ t ∈ ts, t.WellFormed) :
    ∃ body, toSources body = trees ∧ tokensList body = ts := by
  induction h with
  | nil => exact ⟨[], rfl, rfl⟩
  | @number value _ _ _ ih =>
      obtain ⟨hvalue, hrest⟩ := List.forall_mem_cons.mp hts
      obtain ⟨body, rfl, rfl⟩ := ih hrest
      exact ⟨.number ⟨value, hvalue⟩ :: body, rfl, rfl⟩
  | @string value _ _ _ ih =>
      obtain ⟨hvalue, hrest⟩ := List.forall_mem_cons.mp hts
      obtain ⟨body, rfl, rfl⟩ := ih hrest
      exact ⟨.string ⟨value, hvalue⟩ :: body, rfl, rfl⟩
  | @call name l r _ _ _ _ _ _ ihparams ih =>
      -- The texts of brackets are free in `Linear`, and well-formed tokens fix them.
      simp only [List.forall_mem_cons, List.forall_mem_append] at hts
      obtain ⟨hopening, hname, hinner, hclosing, hrest⟩ := hts
      obtain rfl : l = "(" := hopening
      obtain rfl : r = ")" := hclosing
      obtain ⟨params, rfl, rfl⟩ := ihparams hinner
      obtain ⟨body, rfl, rfl⟩ := ih hrest
      exact ⟨.call ⟨name, hname⟩ params :: body, rfl, by simp [tokensList, tokens]⟩

theorem textList_argumentList (body : List Expression) :
    Target.textList (Source.argumentList (toSources body)) = textList body := by
  induction body using list_induction with
  | nil => rfl
  | number digits rest ih =>
      simpa [toSources, toSource, Source.argumentList, Source.argument, Target.textList,
        Target.text, textList, text] using ih
  | string content rest ih =>
      simpa [toSources, toSource, Source.argumentList, Source.argument, Target.textList,
        Target.text, textList, text, Text.quoted, Text.quote] using ih
  | call name params rest ihparams ihrest =>
      simpa [toSources, toSource, Source.argumentList, Source.argument, Target.textList,
        Target.text, textList, text, Text.application, ihparams] using ihrest

theorem text_item (e : Expression) : e.toSource.item.text = e.line := by
  cases e with
  | number digits => rfl
  | string content => rfl
  | call name params =>
      simp only [toSource, Source.item, Source.argument, Target.text, line, text,
        textList_argumentList, Text.terminated, Text.application]

theorem toSources_eq_map (body : List Expression) : toSources body = body.map toSource := by
  induction body with
  | nil => rfl
  | cons e body ih => simp [toSources, ih]

theorem text_toTarget (body : List Expression) :
    (Source.program (toSources body)).toTarget.text = output body := by
  have hlines : ((toSources body).map Source.item).map Target.text = body.map line := by
    rw [toSources_eq_map, List.map_map, List.map_map]
    exact List.map_congr_left fun e _ => text_item e
  rw [Source.toTarget, Target.text, Target.textList_eq_map, hlines]
  rfl

end Expression

open Expression

/-- A text spells the expressions that it is a layout of, and nothing else. -/
theorem sourceOf_eq_ok_iff_layout {s : String} {t : Source} :
    sourceOf s = .ok t ↔
      ∃ body, t = .program (toSources body) ∧ Layout (tokensList body) s := by
  rw [sourceOf_eq_ok_iff]
  constructor
  · rintro ⟨ts, htokens, hparse⟩
    have hscans := scans_of_tokenize htokens
    obtain ⟨trees, rfl, hlinear⟩ := linear_of_parse hparse
    obtain ⟨body, rfl, rfl⟩ := exists_of_linear hlinear hscans.wellFormed
    exact ⟨body, rfl, layout_of_scans hscans⟩
  · rintro ⟨body, rfl, hlayout⟩
    have hscans := scans_of_layout (wellFormed_of_mem_tokensList body) hlayout
    exact ⟨tokensList body, tokenize_of_scans hscans, parse_of_linear (linear_toSources body)⟩

theorem exists_expressions_of_compile {s out : String} (h : compile s = .ok out) :
    ∃ body : List Expression, tokenize s = .ok (tokensList body) ∧
      parse (tokensList body) = .ok (.program (toSources body)) ∧ out = output body := by
  obtain ⟨t, hsource, rfl⟩ := compile_eq_ok_iff.mp h
  obtain ⟨body, rfl, hlayout⟩ := sourceOf_eq_ok_iff_layout.mp hsource
  have hscans := scans_of_layout (wellFormed_of_mem_tokensList body) hlayout
  exact ⟨body, tokenize_of_scans hscans, parse_of_linear (linear_toSources body),
    text_toTarget body⟩

/-- A text compiles exactly if it is a layout of expressions, and its output is
that of these expressions. -/
theorem compile_eq_ok_iff_layout (s out : String) :
    compile s = .ok out ↔
      ∃ body : List Expression, Layout (tokensList body) s ∧ out = output body := by
  rw [compile_eq_ok_iff]
  constructor
  · rintro ⟨t, hsource, rfl⟩
    obtain ⟨body, rfl, hlayout⟩ := sourceOf_eq_ok_iff_layout.mp hsource
    exact ⟨body, hlayout, text_toTarget body⟩
  · rintro ⟨body, hlayout, rfl⟩
    exact ⟨_, sourceOf_eq_ok_iff_layout.mpr ⟨body, rfl, hlayout⟩, text_toTarget body⟩

end Polish
