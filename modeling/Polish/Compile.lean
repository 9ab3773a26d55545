import Polish.Lowering
import Polish.Trace

/-!
The whole way from a text to its output.  `compile` hands on the result of
each stage and keeps none of them; a `Compilation` keeps them all.  The two
go through the same stages, and each is traced.
-/

namespace Polish

namespace Stage

def runLex (input : String) : Traced (List Token) := do
  let tokens ← Traced.span .lex .lex (tokenize input)
  Traced.report (.tokenized tokens.length)
  Traced.report (.tokens tokens)
  return tokens

def runParse (tokens : List Token) : Traced Source := do
  let source ← Traced.span .parse .parse (Polish.parse tokens)
  Traced.report (.parsed source.children.length)
  Traced.report (.source source)
  return source

def runTransform (source : Source) : Traced Target := do
  let target ← Traced.span .transform .transform (lower source)
  Traced.report (.transformed target.children.length)
  Traced.report (.target target)
  return target

def runGenerate (target : Target) : Traced String := do
  let output ← Traced.span .generate .generate target.render
  Traced.report (.generated output.utf8ByteSize)
  Traced.report (.output output)
  return output

end Stage

def compileTraced (input : String) : Traced String :=
  Traced.reportingFailure <|
    Stage.runLex input >>= Stage.runParse >>= fun source =>
      Stage.runTransform source >>= Stage.runGenerate

/-- The output for a text, or the error of the first stage that fails. -/
def compile (input : String) : Except CompileError String :=
  (compileTraced input).runTrace.1

/-- What each stage made of a text. -/
structure Compilation where
  tokens : List Token
  source : Source
  target : Target
  output : String
  deriving DecidableEq, Repr

namespace Compilation

def stages (input : String) : Traced Compilation := do
  let tokens ← Stage.runLex input
  let source ← Stage.runParse tokens
  let target ← Stage.runTransform source
  let output ← Stage.runGenerate target
  return { tokens, source, target, output }

def runTraced (input : String) : Traced Compilation :=
  Traced.reportingFailure (stages input)

def run (input : String) : Except CompileError Compilation :=
  (runTraced input).runTrace.1

end Compilation

end Polish
