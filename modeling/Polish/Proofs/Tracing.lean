import Polish.Proofs.Stages

/-!
What a run writes into its trace.

The rules for traced computations show that the two ways to compile a text,
which are put together differently, leave the same lines.  Lowering and writing
take every tree that was read, so no run reports a failure of the two later
stages.  This leaves three forms for a trace (`TraceOf`).
-/

namespace Polish

open Stage Traced

/-- What a stage reports when it succeeds: how much it made, at the one level,
and what it made, at the other. -/
structure StageReports where
  amount : Report
  made : Report
  amount_level : amount.level = .debug
  made_level : made.level = .trace

def Stage.lines (stage : Stage) (reports : StageReports) : List TraceLine :=
  [.enter stage, .exit stage, .report reports.amount, .report reports.made]

def CompileError.line (e : CompileError) : TraceLine :=
  .report (.failed e.stage e.message)

/-- What compiling a text comes to, and its trace: the text has no tokens, or its
tokens have no tree, or it goes through all stages. -/
inductive TraceOf (s : String) : Except CompileError String → List TraceLine → Prop
  | unscanned {e : LexError} (htokens : tokenize s = .error e) :
      TraceOf s (.error (.lex e)) [.enter .lex, .exit .lex, (CompileError.lex e).line]
  | unparsed {ts : List Token} {e : ParseError} (htokens : tokenize s = .ok ts)
      (hparse : parse ts = .error e) :
      TraceOf s (.error (.parse e))
        (Stage.lex.lines ⟨.tokenized ts.length, .tokens ts, rfl, rfl⟩ ++
          [.enter .parse, .exit .parse, (CompileError.parse e).line])
  | through {ts : List Token} {body : List Source} {u : Target} {out : String}
      (htokens : tokenize s = .ok ts) (hparse : parse ts = .ok (.program body))
      (hlower : lower (.program body) = .ok u) (hout : u.render = .ok out) :
      TraceOf s (.ok out)
        (Stage.lex.lines ⟨.tokenized ts.length, .tokens ts, rfl, rfl⟩ ++
          Stage.parse.lines ⟨.parsed body.length, .source (.program body), rfl, rfl⟩ ++
          Stage.transform.lines ⟨.transformed body.length, .target u, rfl, rfl⟩ ++
          Stage.generate.lines ⟨.generated out.utf8ByteSize, .output out, rfl, rfl⟩)

theorem exists_traceOf (s : String) :
    ∃ r lines, TraceOf s (r.map (·.output)) lines ∧
      Leaves (compileTraced s) (r.map (·.output)) lines ∧
      Leaves (Compilation.runTraced s) r lines := by
  cases htokens : tokenize s with
  | error e =>
      have hlex : Leaves (runLex s) (.error (.lex e)) [.enter .lex, .exit .lex] :=
        leaves_stage_error htokens
      refine ⟨.error (.lex e), _, .unscanned htokens, ?_, ?_⟩
      · exact ((hlex.bind_error _).bind_error _).reportingFailure_error
      · exact (hlex.bind_error _).reportingFailure_error
  | ok ts =>
      have hlex : Leaves (runLex s) (.ok ts) _ := leaves_stage_ok htokens
      cases hparse : parse ts with
      | error e =>
          have hread : Leaves (runParse ts) (.error (.parse e)) [.enter .parse, .exit .parse] :=
            leaves_stage_error hparse
          have hstages : Leaves (Compilation.stages s) (.error (.parse e)) _ :=
            Leaves.bind hlex (hread.bind_error _)
          refine ⟨.error (.parse e), _, .unparsed htokens hparse, ?_, ?_⟩
          · exact ((hlex.bind hread).bind_error _).reportingFailure_error
          · exact hstages.reportingFailure_error
      | ok t =>
          obtain ⟨body, rfl, -⟩ := linear_of_parse hparse
          obtain ⟨u, hlower, hlength⟩ : ∃ u, lower (.program body) = .ok u ∧
              u.children.length = body.length :=
            ⟨_, lower_of_parse hparse, List.length_map _⟩
          have hread : Leaves (runParse ts) (.ok (.program body)) _ :=
            leaves_stage_ok hparse
          have htransform : Leaves (runTransform (.program body)) (.ok u) _ :=
            leaves_stage_ok hlower
          have hgenerate : Leaves (runGenerate u) (.ok u.text) _ := leaves_stage_ok u.render_eq_ok
          have hstages : Leaves (Compilation.stages s) (.ok ⟨ts, .program body, u, u.text⟩) _ :=
            Leaves.bind hlex (Leaves.bind hread (Leaves.bind htransform
              (Leaves.bind hgenerate (leaves_pure _))))
          -- The transformation reports the items of the target, which are as many as were parsed.
          rw [hlength] at htransform hstages
          refine ⟨.ok ⟨ts, .program body, u, u.text⟩, _,
            .through htokens hparse hlower u.render_eq_ok, ?_, ?_⟩
          · exact ((hlex.bind hread).bind (htransform.bind hgenerate)).reportingFailure_ok
          · exact hstages.reportingFailure_ok

/-- Every span is left as soon as it is entered. -/
inductive SpansClosed : List TraceLine → Prop
  | nil : SpansClosed []
  | span {stage : Stage} {lines : List TraceLine} (h : SpansClosed lines) :
      SpansClosed (.enter stage :: .exit stage :: lines)
  | report {r : Report} {lines : List TraceLine} (h : SpansClosed lines) :
      SpansClosed (.report r :: lines)

def TraceLine.isFailure : TraceLine → Bool
  | .report (.failed _ _) => true
  | _ => false

/-- A failure is told if there is one, once and at the end. -/
structure TellsFailure (result : Except CompileError String) (lines : List TraceLine) : Prop where
  failures : lines.filter (·.isFailure) =
    match result with
    | .ok _ => []
    | .error e => [e.line]
  last : ∀ e, result = .error e → lines.getLast? = some e.line

namespace TraceOf

variable {s : String} {result : Except CompileError String} {lines : List TraceLine}

theorem spansClosed (h : TraceOf s result lines) : SpansClosed lines := by
  cases h with
  | unscanned => exact .span (.report .nil)
  | unparsed => exact .span (.report (.report (.span (.report .nil))))
  | through =>
      exact .span (.report (.report (.span (.report (.report (.span (.report (.report
        (.span (.report (.report .nil)))))))))))

theorem tellsFailure (h : TraceOf s result lines) : TellsFailure result lines := by
  cases h with
  | unscanned => exact ⟨rfl, by rintro _ ⟨⟩; rfl⟩
  | unparsed => exact ⟨rfl, by rintro _ ⟨⟩; rfl⟩
  | through => exact ⟨rfl, by rintro _ ⟨⟩⟩

theorem length_eq (h : TraceOf s result lines) :
    lines.length =
      match tokenize s with
      | .error _ => 3
      | .ok ts =>
        match parse ts with
        | .error _ => 7
        | .ok _ => 16 := by
  cases h with
  | unscanned htokens => rw [htokens]; rfl
  | unparsed htokens hparse => simp only [htokens, hparse]; rfl
  | through htokens hparse => simp only [htokens, hparse]; rfl

end TraceOf

/-- Both ways to compile a text leave the same trace, which has one of three
forms.  In it every span is left as soon as it is entered, and the error that is
returned, if there is one, is told once and at the end. -/
theorem trace_of_compile (s : String) :
    ∃ lines, (compileTraced s).runTrace = (compile s, lines) ∧
      (Compilation.runTraced s).runTrace = (Compilation.run s, lines) ∧
      (Compilation.run s).map (·.output) = compile s ∧
      TraceOf s (compile s) lines ∧
      SpansClosed lines ∧
      TellsFailure (compile s) lines ∧
      lines.length =
        match tokenize s with
        | .error _ => 3
        | .ok ts =>
          match parse ts with
          | .error _ => 7
          | .ok _ => 16 := by
  obtain ⟨r, lines, htrace, hcompile, hrun⟩ := exists_traceOf s
  have hresult : compile s = r.map (·.output) := congrArg Prod.fst hcompile.runTrace_eq
  have hkept : Compilation.run s = r := congrArg Prod.fst hrun.runTrace_eq
  rw [hresult, hkept]
  exact ⟨lines, hcompile.runTrace_eq, hrun.runTrace_eq, rfl, htrace, htrace.spansClosed,
    htrace.tellsFailure, htrace.length_eq⟩

end Polish
