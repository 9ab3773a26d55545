import Polish.Compile
import Polish.Proofs.Linear
import Polish.Proofs.Lowering
import Polish.Proofs.Rendering

/-!
What a run comes to and what it adds to its trace.

A traced computation adds lines to those that are there and looks at none of
them, so its result and the lines it leaves can be said without a state
(`Leaves`), and there is one rule for each way to build such a computation.
With the lines left aside (`Yields`), `compile` and `Compilation.run` are plain
chains of the four stages.

A tree that was read is a program with no program in it, so lowering takes it
and writing takes what lowering gives.  Only the first two stages can fail:
`compile_eq` and `run_eq` say that what a text compiles to is a function of the
tree that it spells.
-/

namespace Polish

open Source

namespace Traced

variable {α β ε : Type}

/-- The computation ends with `r` and adds `lines` to every trace. -/
def Leaves (x : Traced α) (r : Except CompileError α) (lines : List TraceLine) : Prop :=
  ∀ before, Fallible.outcome x before = (r, before ++ lines.toArray)

variable {x : Traced α} {f : α → Traced β} {r : Except CompileError β} {a : α} {e : CompileError}
  {lines later : List TraceLine}

theorem leaves_pure (a : α) : Leaves (pure a) (.ok a) [] := by
  intro before
  rw [Fallible.outcome_pure, Array.append_empty]

theorem leaves_throw (e : CompileError) : Leaves (throw e : Traced α) (.error e) [] := by
  intro before
  rw [Fallible.outcome_throw, Array.append_empty]

theorem leaves_line (l : TraceLine) : Leaves (line l) (.ok ()) [l] := by
  intro before
  rw [line, Fallible.outcome_modify, Array.push_eq_append]

theorem Leaves.bind (hx : Leaves x (.ok a) lines) (hf : Leaves (f a) r later) :
    Leaves (x >>= f) r (lines ++ later) := by
  intro before
  rw [Fallible.outcome_bind, hx before]
  simpa using hf (before ++ lines.toArray)

theorem Leaves.bind_error (hx : Leaves x (.error e) lines) (f : α → Traced β) :
    Leaves (x >>= f) (.error e) lines := by
  intro before
  rw [Fallible.outcome_bind, hx before]

theorem Leaves.reportingFailure_ok (hx : Leaves x (.ok a) lines) :
    Leaves (reportingFailure x) (.ok a) lines := by
  intro before
  rw [reportingFailure, Fallible.outcome_tryCatch, hx before]

theorem Leaves.reportingFailure_error (hx : Leaves x (.error e) lines) :
    Leaves (reportingFailure x) (.error e)
      (lines ++ [.report (.failed e.stage e.message)]) := by
  have hreport : Leaves (do report (.failed e.stage e.message); throw e : Traced α) (.error e)
      [.report (.failed e.stage e.message)] := (leaves_line _).bind (leaves_throw e)
  intro before
  rw [reportingFailure, Fallible.outcome_tryCatch, hx before]
  simpa using hreport (before ++ lines.toArray)

theorem Leaves.runTrace_eq {r : Except CompileError α} (hx : Leaves x r lines) :
    x.runTrace = (r, lines) := by
  rw [runTrace, hx #[]]
  simp

section

variable {stage : Stage} {wrap : ε → CompileError} {amount made : α → Report}

theorem leaves_span (stage : Stage) (wrap : ε → CompileError) (r : Except ε α) :
    Leaves (span stage wrap r) (r.mapError wrap) [.enter stage, .exit stage] := by
  cases r with
  | error e => exact (leaves_line _).bind ((leaves_line _).bind (leaves_throw (wrap e)))
  | ok a => exact (leaves_line _).bind ((leaves_line _).bind (leaves_pure a))

theorem leaves_stage_error {r : Except ε α} {e : ε} (hr : r = .error e) :
    Leaves (do
      let a ← span stage wrap r
      report (amount a)
      report (made a)
      return a) (.error (wrap e)) [.enter stage, .exit stage] := by
  have hspan := leaves_span stage wrap r
  rw [hr] at hspan ⊢
  exact hspan.bind_error _

theorem leaves_stage_ok {r : Except ε α} {a : α} (hr : r = .ok a) :
    Leaves (do
      let a ← span stage wrap r
      report (amount a)
      report (made a)
      return a) (.ok a) [.enter stage, .exit stage, .report (amount a), .report (made a)] := by
  have hspan := leaves_span stage wrap r
  rw [hr] at hspan ⊢
  exact hspan.bind ((leaves_line _).bind ((leaves_line _).bind (leaves_pure a)))

end

/-- The computation ends with `r`, whatever lines it adds. -/
def Yields (x : Traced α) (r : Except CompileError α) : Prop :=
  ∃ lines, Leaves x r lines

theorem Yields.bind {r : Except CompileError α} {g : α → Except CompileError β}
    (hx : Yields x r) (hf : ∀ a, Yields (f a) (g a)) : Yields (x >>= f) (r >>= g) := by
  obtain ⟨lines, hx⟩ := hx
  cases r with
  | error e => exact ⟨lines, hx.bind_error f⟩
  | ok a =>
      obtain ⟨later, hf⟩ := hf a
      exact ⟨lines ++ later, hx.bind hf⟩

theorem yields_stage (stage : Stage) (wrap : ε → CompileError) (r : Except ε α)
    (amount made : α → Report) :
    Yields (do
      let a ← span stage wrap r
      report (amount a)
      report (made a)
      return a) (r.mapError wrap) := by
  cases r with
  | error e => exact ⟨_, leaves_stage_error rfl⟩
  | ok a => exact ⟨_, leaves_stage_ok rfl⟩

theorem Yields.reportingFailure {r : Except CompileError α} (hx : Yields x r) :
    Yields (reportingFailure x) r := by
  obtain ⟨lines, hx⟩ := hx
  cases r with
  | error e => exact ⟨_, hx.reportingFailure_error⟩
  | ok a => exact ⟨lines, hx.reportingFailure_ok⟩

theorem Yields.runTrace_fst {r : Except CompileError α} (hx : Yields x r) : x.runTrace.1 = r := by
  obtain ⟨lines, hx⟩ := hx
  rw [hx.runTrace_eq]

end Traced

open Traced

namespace Stage

theorem runLex_yields (input : String) :
    Yields (runLex input) ((tokenize input).mapError .lex) := yields_stage _ _ _ _ _

theorem runParse_yields (ts : List Token) :
    Yields (runParse ts) ((Polish.parse ts).mapError .parse) := yields_stage _ _ _ _ _

theorem runTransform_yields (t : Source) :
    Yields (runTransform t) ((lower t).mapError .transform) := yields_stage _ _ _ _ _

theorem runGenerate_yields (u : Target) : Yields (runGenerate u) (.ok u.text) := by
  have h : Yields (runGenerate u) (u.render.mapError .generate) := yields_stage _ _ _ _ _
  rwa [u.render_eq_ok] at h

end Stage

open Stage

@[simp] theorem mapError_ok {α ε δ : Type} (wrap : ε → δ) (a : α) :
    (Except.ok a).mapError wrap = .ok a := rfl

@[simp] theorem mapError_error {α ε δ : Type} (wrap : ε → δ) (e : ε) :
    (Except.error e : Except ε α).mapError wrap = .error (wrap e) := rfl

/-- The tree that a text spells, or why it spells none. -/
def sourceOf (s : String) : Except CompileError Source :=
  (tokenize s).mapError .lex >>= fun ts => (parse ts).mapError .parse

theorem compile_eq_stages (s : String) :
    compile s = sourceOf s >>= fun t => (lower t).mapError .transform >>= fun u =>
      .ok u.text := by
  have hread := (runLex_yields s).bind runParse_yields
  have hwrite := fun t => (runTransform_yields t).bind runGenerate_yields
  exact (hread.bind hwrite).reportingFailure.runTrace_fst

theorem run_eq_stages (s : String) :
    Compilation.run s = (tokenize s).mapError .lex >>= fun ts =>
      (parse ts).mapError .parse >>= fun t => (lower t).mapError .transform >>= fun u =>
        .ok ⟨ts, t, u, u.text⟩ := by
  have h := (runLex_yields s).bind fun ts => (runParse_yields ts).bind fun t =>
    (runTransform_yields t).bind fun u => (runGenerate_yields u).bind fun out =>
      ⟨[], leaves_pure (⟨ts, t, u, out⟩ : Compilation)⟩
  exact h.reportingFailure.runTrace_fst

def Source.toTarget : Source → Target
  | .program body => .program (body.map item)
  | t => t.argument

/-- What was read from tokens can be lowered, whatever their texts are. -/
theorem lower_of_parse {ts : List Token} {t : Source} (h : parse ts = .ok t) :
    lower t = .ok t.toTarget := by
  obtain ⟨body, rfl, hlinear⟩ := linear_of_parse h
  exact lower_program_of_programFree hlinear.programFreeList

theorem sourceOf_eq_ok_iff {s : String} {t : Source} :
    sourceOf s = .ok t ↔ ∃ ts, tokenize s = .ok ts ∧ parse ts = .ok t := by
  rw [sourceOf]
  cases tokenize s with
  | error e => simp [bind, Except.bind]
  | ok ts =>
      cases hparse : parse ts with
      | error e => simp [bind, Except.bind, hparse]
      | ok t' => simp [bind, Except.bind, hparse]

theorem sourceOf_eq_error_iff {s : String} {e : CompileError} :
    sourceOf s = .error e ↔ (∃ l, tokenize s = .error l ∧ e = .lex l) ∨
      ∃ ts p, tokenize s = .ok ts ∧ parse ts = .error p ∧ e = .parse p := by
  rw [sourceOf]
  cases tokenize s with
  | error l => simp [bind, Except.bind, eq_comm]
  | ok ts =>
      cases hparse : parse ts with
      | error p => simp [bind, Except.bind, hparse, eq_comm]
      | ok t => simp [bind, Except.bind, hparse]

theorem compile_eq (s : String) :
    compile s = (sourceOf s).map fun t => t.toTarget.text := by
  rw [compile_eq_stages]
  cases hsource : sourceOf s with
  | error e => rfl
  | ok t =>
      obtain ⟨ts, -, hparse⟩ := sourceOf_eq_ok_iff.mp hsource
      simp [lower_of_parse hparse, bind, Except.bind, Except.map]

theorem run_eq (s : String) :
    Compilation.run s = (tokenize s).mapError .lex >>= fun ts =>
      ((parse ts).mapError .parse).map fun t => ⟨ts, t, t.toTarget, t.toTarget.text⟩ := by
  rw [run_eq_stages]
  cases tokenize s with
  | error e => rfl
  | ok ts =>
      cases hparse : parse ts with
      | error e => simp [hparse, bind, Except.bind, Except.map]
      | ok t =>
          simp [hparse, lower_of_parse hparse, bind, Except.bind, Except.map]

theorem compile_eq_ok_iff {s out : String} :
    compile s = .ok out ↔ ∃ t, sourceOf s = .ok t ∧ t.toTarget.text = out := by
  rw [compile_eq]
  cases sourceOf s <;> simp [Except.map]

theorem compile_eq_error_iff {s : String} {e : CompileError} :
    compile s = .error e ↔ sourceOf s = .error e := by
  rw [compile_eq]
  cases sourceOf s <;> simp [Except.map]

/-- The two ways to compile a text differ in what they keep. -/
theorem map_output_run (s : String) : (Compilation.run s).map (·.output) = compile s := by
  rw [run_eq, compile_eq, sourceOf]
  cases tokenize s with
  | error e => rfl
  | ok ts =>
      cases hparse : parse ts with
      | error e => simp [hparse, bind, Except.bind, Except.map]
      | ok t => simp [hparse, bind, Except.bind, Except.map]

theorem run_eq_error_iff {s : String} {e : CompileError} :
    Compilation.run s = .error e ↔ compile s = .error e := by
  rw [← map_output_run]
  cases Compilation.run s <;> simp [Except.map]

/-- No tree that was read fails in a later stage.  So compiling a text, with or
without keeping what is between, fails where its tokens or their tree cannot be
read, with the error of that stage, and gives the same output otherwise. -/
theorem only_reading_fails :
    (∀ ts t, parse ts = .ok t → ∃ u out, lower t = .ok u ∧ u.render = .ok out ∧
      (runGenerate u).runTrace.1 = .ok out ∧ (Untyped.ofTarget u).render = .ok out) ∧
    ∀ s,
      (∀ e, compile s = .error (.lex e) ↔ tokenize s = .error e) ∧
      (∀ e, compile s = .error (.parse e) ↔ ∃ ts, tokenize s = .ok ts ∧ parse ts = .error e) ∧
      (∀ e, compile s ≠ .error (.transform e)) ∧ (∀ e, compile s ≠ .error (.generate e)) ∧
      (∀ e, Compilation.run s = .error e ↔ compile s = .error e) ∧
      ((∃ out, compile s = .ok out) ↔ ∃ ts t, tokenize s = .ok ts ∧ parse ts = .ok t) ∧
      ∀ out, compile s = .ok out ↔ ∃ r, Compilation.run s = .ok r ∧ r.output = out := by
  refine ⟨?_, fun s => ⟨?_, ?_, ?_, ?_, fun e => run_eq_error_iff, ?_, ?_⟩⟩
  · intro ts t h
    exact ⟨t.toTarget, _, lower_of_parse h, t.toTarget.render_eq_ok,
      (runGenerate_yields _).runTrace_fst, Untyped.render_ofTarget _⟩
  · intro e
    simp [compile_eq_error_iff, sourceOf_eq_error_iff]
  · intro e
    simp [compile_eq_error_iff, sourceOf_eq_error_iff]
  · intro e
    simp [compile_eq_error_iff, sourceOf_eq_error_iff]
  · intro e
    simp [compile_eq_error_iff, sourceOf_eq_error_iff]
  · simp only [compile_eq_ok_iff, sourceOf_eq_ok_iff]
    constructor
    · rintro ⟨out, t, ⟨ts, htokens, hparse⟩, -⟩
      exact ⟨ts, t, htokens, hparse⟩
    · rintro ⟨ts, t, htokens, hparse⟩
      exact ⟨_, t, ⟨ts, htokens, hparse⟩, rfl⟩
  · intro out
    rw [← map_output_run]
    cases Compilation.run s <;> simp [Except.map]

/-- Tokens that no text has: the brackets are told by their kind alone. -/
theorem only_reading_fails_free_texts :
    parse [⟨.opening, "["⟩, ⟨.name, "1"⟩, ⟨.string, "\""⟩, ⟨.closing, ""⟩] =
        .ok (.program [.call "1" [.string "\""]]) ∧
      ∃ u out, lower (.program [.call "1" [.string "\""]]) = .ok u ∧ u.render = .ok out ∧
        (runGenerate u).runTrace.1 = .ok out ∧ (Untyped.ofTarget u).render = .ok out :=
  have hparse : parse [⟨.opening, "["⟩, ⟨.name, "1"⟩, ⟨.string, "\""⟩, ⟨.closing, ""⟩] =
      .ok (.program [.call "1" [.string "\""]]) := parse_of_linear (.call (.string .nil) .nil)
  ⟨hparse, only_reading_fails.1 _ _ hparse⟩

end Polish
