import Polish.Source
import Polish.Token

/-!
From tokens to a source tree.  The grammar has one rule,

    expression = number | string | opening name expression* closing

and a program is any number of expressions.  Reading goes by recursive
descent: `readExpression`, `readCall` and `readArguments` each take the tokens still to be
read and say what they found and where they stopped.  They say where they
stopped also when they fail, so that "at least one token is consumed" is a
statement about every reading, and this is what the recursion ends by.
-/

namespace Polish

/-- Why tokens are not a program: a token that cannot go on from what was read
before it, or tokens that end inside a call. -/
inductive ParseError
  | unexpectedToken (token : Token)
  | unexpectedEnd
  deriving DecidableEq, Repr

def ParseError.message : ParseError → String
  | .unexpectedToken t => "unexpected token " ++ t.describe
  | .unexpectedEnd => "unexpected end of input"

namespace Source

/-- What a reading of `ts` found and the tokens it left.  It has consumed at
least one token if there was one. -/
structure Outcome (ts : List Token) (α : Type) where
  result : Except ParseError α
  rest : List Token
  shorter : rest.length ≤ ts.length - 1

theorem Outcome.rest_length_lt {t : Token} {ts : List Token} {α : Type}
    (found : Outcome (t :: ts) α) : found.rest.length < (t :: ts).length :=
  Nat.lt_succ_of_le found.shorter

mutual

def readExpression (ts : List Token) : Outcome ts Source :=
  match ts with
  | [] => ⟨.error .unexpectedEnd, [], Nat.le_refl _⟩
  | t :: rest =>
    match t.kind with
    | .number => ⟨.ok (.number t.text), rest, Nat.le_refl _⟩
    | .string => ⟨.ok (.string t.text), rest, Nat.le_refl _⟩
    | .opening =>
      let found := readCall rest
      ⟨found.result, found.rest, Nat.le_trans found.shorter (Nat.sub_le _ 1)⟩
    | .closing => ⟨.error (.unexpectedToken t), rest, Nat.le_refl _⟩
    | .name => ⟨.error (.unexpectedToken t), rest, Nat.le_refl _⟩
termination_by 3 * ts.length
decreasing_by simp only [List.length_cons]; omega

/-- Read a call whose opening bracket has been read. -/
def readCall (ts : List Token) : Outcome ts Source :=
  match ts with
  | [] => ⟨.error .unexpectedEnd, [], Nat.le_refl _⟩
  | t :: rest =>
    match t.kind with
    | .name =>
      let found := readArguments rest
      ⟨found.result.map (.call t.text), found.rest, Nat.le_trans found.shorter (Nat.sub_le _ 1)⟩
    | _ => ⟨.error (.unexpectedToken t), rest, Nat.le_refl _⟩
termination_by 3 * ts.length + 2
decreasing_by simp only [List.length_cons]; omega

/-- Read expressions up to and including the closing bracket of their call. -/
def readArguments (ts : List Token) : Outcome ts (List Source) :=
  match ts with
  | [] => ⟨.error .unexpectedEnd, [], Nat.le_refl _⟩
  | t :: rest =>
    match t.kind with
    | .closing => ⟨.ok [], rest, Nat.le_refl _⟩
    | _ =>
      let first := readExpression (t :: rest)
      match first.result with
      | .error e => ⟨.error e, first.rest, first.shorter⟩
      | .ok param =>
        let others := readArguments first.rest
        ⟨others.result.map (param :: ·), others.rest,
          Nat.le_trans others.shorter (Nat.le_trans (Nat.sub_le _ 1) first.shorter)⟩
termination_by 3 * ts.length + 1
decreasing_by
  · omega
  · exact Nat.add_lt_add_right (Nat.mul_lt_mul_of_pos_left (Outcome.rest_length_lt _) (by decide)) 1

end

def readBody (ts : List Token) : Except ParseError (List Source) :=
  match ts with
  | [] => .ok []
  | t :: rest =>
    let first := readExpression (t :: rest)
    match first.result with
    | .error e => .error e
    | .ok item => (readBody first.rest).map (item :: ·)
termination_by ts.length
decreasing_by exact Outcome.rest_length_lt _

/-! ### Equations

What a reading found and left, as a pair, with one equation for each way that
the tokens can begin. -/

def Outcome.view {ts : List Token} {α : Type} (found : Outcome ts α) :
    Except ParseError α × List Token :=
  (found.result, found.rest)

@[simp] theorem view_readExpression_nil :
    (readExpression []).view = (.error .unexpectedEnd, []) := by
  rw [readExpression, Outcome.view]

theorem view_readExpression_cons (t : Token) (rest : List Token) :
    (readExpression (t :: rest)).view =
      match t.kind with
      | .number => (.ok (.number t.text), rest)
      | .string => (.ok (.string t.text), rest)
      | .opening => (readCall rest).view
      | .closing => (.error (.unexpectedToken t), rest)
      | .name => (.error (.unexpectedToken t), rest) := by
  rw [readExpression]
  cases t.kind <;> rfl

@[simp] theorem view_readCall_nil : (readCall []).view = (.error .unexpectedEnd, []) := by
  rw [readCall, Outcome.view]

theorem view_readCall_cons (t : Token) (rest : List Token) :
    (readCall (t :: rest)).view =
      match t.kind with
      | .name =>
        ((readArguments rest).view.1.map (.call t.text), (readArguments rest).view.2)
      | _ => (.error (.unexpectedToken t), rest) := by
  rw [readCall]
  cases t.kind <;> rfl

@[simp] theorem view_readArguments_nil :
    (readArguments []).view = (.error .unexpectedEnd, []) := by
  rw [readArguments, Outcome.view]

theorem view_readArguments_cons (t : Token) (rest : List Token) :
    (readArguments (t :: rest)).view =
      match t.kind with
      | .closing => (.ok [], rest)
      | _ =>
        match (readExpression (t :: rest)).view with
        | (.error e, left) => (.error e, left)
        | (.ok param, left) =>
          ((readArguments left).view.1.map (param :: ·), (readArguments left).view.2) := by
  rw [readArguments]
  cases t.kind with
  | closing => rfl
  | _ =>
    simp only [Outcome.view]
    cases (readExpression (t :: rest)).result <;> rfl

@[simp] theorem readBody_nil : readBody [] = .ok [] := by
  rw [readBody]

theorem readBody_cons (t : Token) (rest : List Token) :
    readBody (t :: rest) =
      match (readExpression (t :: rest)).view with
      | (.error e, _) => .error e
      | (.ok item, left) => (readBody left).map (item :: ·) := by
  rw [readBody]
  simp only [Outcome.view]
  cases (readExpression (t :: rest)).result <;> rfl

end Source

/-- The program that tokens spell, or the first place where they cannot be one. -/
def parse (ts : List Token) : Except ParseError Source :=
  (Source.readBody ts).map .program

end Polish
