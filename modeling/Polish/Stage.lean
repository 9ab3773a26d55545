import Polish.Source.Read
import Polish.Token.Scan
import Polish.Render
import Polish.Walk

/-!
The stages that a text goes through, and the error of the first one that
fails.
-/

namespace Polish

/-- The stages, in the order in which they run. -/
inductive Stage
  | lex
  | parse
  | transform
  | generate
  deriving DecidableEq, Repr

namespace Stage

def label : Stage → String
  | .lex => "lex"
  | .parse => "parse"
  | .transform => "transform"
  | .generate => "generate"

def rank : Stage → Nat
  | .lex => 0
  | .parse => 1
  | .transform => 2
  | .generate => 3

def earlier (a b : Stage) : Stage :=
  if b.rank < a.rank then b else a

def earliest? : List Stage → Option Stage
  | [] => none
  | s :: rest => some (rest.foldl earlier s)

end Stage

inductive CompileError
  | lex (e : LexError)
  | parse (e : ParseError)
  | transform (e : WalkError)
  | generate (e : RenderError)
  deriving DecidableEq, Repr

namespace CompileError

def stage : CompileError → Stage
  | .lex _ => .lex
  | .parse _ => .parse
  | .transform _ => .transform
  | .generate _ => .generate

def message : CompileError → String
  | .lex e => "lex error: " ++ e.message
  | .parse e => "parse error: " ++ e.message
  | .transform e => "transform error: " ++ e.message
  | .generate e => "codegen error: " ++ e.message

end CompileError

end Polish
