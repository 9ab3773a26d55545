import Polish.Proofs.Linear

/-!
Where tokens stop being the beginning of a program.

Reading by recursive descent keeps the open calls on its stack, and an error
says little about what was read before it.  All that matters for what may come
next is how many calls are open and whether the name of one is due.  `Awaited`
keeps these two things, and `Awaited.run` goes over the tokens with nothing else
in hand.  `verdict_run` says that it finds the same errors as reading does.

About runs the question is simple.  Tokens that were passed can be completed to
a program, by a name if one is due and by closing brackets
(`Awaited.exists_run_eq_closed`).  A token at which a run stops ends it whatever
follows.  Hence an error stands at the first token that no program goes on with,
or at the end of tokens that some program goes on from.
-/

namespace Polish

open Source

/-- What has to come next: an expression, or the name of a call that was just
opened.  `depth` is the number of calls around it; a closing bracket may come
instead of an expression if there is one. -/
inductive Awaited
  | expression (depth : Nat)
  | name (depth : Nat)
  deriving DecidableEq, Repr

namespace Awaited

/-- What has to come after one more token, or the token if it cannot come. -/
def next : Awaited → Token → Except Token Awaited
  | .expression depth, t =>
    match t.kind, depth with
    | .number, depth => .ok (.expression depth)
    | .string, depth => .ok (.expression depth)
    | .opening, depth => .ok (.name depth)
    | .closing, depth + 1 => .ok (.expression depth)
    | _, _ => .error t
  | .name depth, t =>
    match t.kind with
    | .name => .ok (.expression (depth + 1))
    | _ => .error t

def run (q : Awaited) (ts : List Token) : Except Token Awaited :=
  ts.foldlM next q

/-- Before the first token, and again behind each item of a program. -/
abbrev closed : Awaited := .expression 0

/-- What a run says about the tokens as a program. -/
def verdict : Except Token Awaited → Except ParseError Unit
  | .ok q => if q = closed then .ok () else .error .unexpectedEnd
  | .error t => .error (.unexpectedToken t)

variable {q q₁ q' : Awaited} {t u : Token} {ts : List Token}

theorem run_cons_of_ok (h : q.next t = .ok q') (ts : List Token) :
    q.run (t :: ts) = q'.run ts := by
  rw [run, List.foldlM_cons, h]
  rfl

theorem run_cons_of_error (h : q.next t = .error u) (ts : List Token) :
    q.run (t :: ts) = .error u := by
  rw [run, List.foldlM_cons, h]
  rfl

theorem run_append_of_ok (h : q.run ts = .ok q') (us : List Token) :
    q.run (ts ++ us) = q'.run us := by
  rw [run, List.foldlM_append, ← run, h]
  rfl

theorem run_append_of_error (h : q.run ts = .error u) (us : List Token) :
    q.run (ts ++ us) = .error u := by
  rw [run, List.foldlM_append, ← run, h]
  rfl

theorem eq_of_next_eq_error (h : q.next t = .error u) : u = t := by
  unfold next at h
  cases q with
  | expression depth =>
      dsimp only at h
      split at h <;> cases h
      rfl
  | name depth =>
      dsimp only at h
      split at h <;> cases h
      rfl

theorem verdict_eq_ok_iff {r : Except Token Awaited} :
    verdict r = .ok () ↔ r = .ok closed := by
  cases r <;> simp [verdict]

theorem verdict_eq_unexpectedToken_iff {r : Except Token Awaited} :
    verdict r = .error (.unexpectedToken t) ↔ r = .error t := by
  cases r with
  | error u => simp [verdict]
  | ok q =>
      rw [verdict]
      split <;> simp

theorem verdict_eq_unexpectedEnd_iff {r : Except Token Awaited} :
    verdict r = .error .unexpectedEnd ↔ r ≠ .ok closed ∧ ∃ q, r = .ok q := by
  cases r <;> simp [verdict]

theorem run_closings (depth : Nat) :
    run (.expression depth) (List.replicate depth ⟨.closing, ")"⟩) = .ok closed := by
  induction depth with
  | zero => rfl
  | succ depth ih =>
      rw [List.replicate_succ, run_cons_of_ok rfl]
      exact ih

/-- What was passed can be completed to a whole program. -/
theorem exists_run_eq_closed (q : Awaited) : ∃ ext, q.run ext = .ok closed := by
  cases q with
  | expression depth => exact ⟨_, run_closings depth⟩
  | name depth =>
      refine ⟨⟨.name, "f"⟩ :: List.replicate (depth + 1) ⟨.closing, ")"⟩, ?_⟩
      rw [run_cons_of_ok rfl]
      exact run_closings (depth + 1)

theorem exists_run_append_eq_closed_iff (q : Awaited) (ts : List Token) :
    (∃ ext, q.run (ts ++ ext) = .ok closed) ↔ ∃ q', q.run ts = .ok q' := by
  cases hrun : q.run ts with
  | error u => simp [run_append_of_error hrun]
  | ok q' => simpa [run_append_of_ok hrun] using exists_run_eq_closed q'

theorem run_eq_error_iff :
    q.run ts = .error u ↔ ∃ p r, ts = p ++ [u] ++ r ∧ (∃ q', q.run p = .ok q') ∧
      ¬∃ q', q.run (p ++ [u]) = .ok q' := by
  constructor
  · intro h
    induction ts generalizing q with
    | nil => cases h
    | cons t ts ih =>
        cases hnext : q.next t with
        | error v =>
            obtain rfl := eq_of_next_eq_error hnext
            rw [run_cons_of_error hnext] at h
            cases h
            refine ⟨[], ts, rfl, ⟨q, rfl⟩, ?_⟩
            simp [run_cons_of_error hnext]
        | ok q₁ =>
            rw [run_cons_of_ok hnext] at h
            obtain ⟨p, r, rfl, hp, hstop⟩ := ih h
            refine ⟨t :: p, r, rfl, ?_, ?_⟩
            · rwa [run_cons_of_ok hnext]
            · rwa [List.cons_append, run_cons_of_ok hnext]
  · rintro ⟨p, r, rfl, ⟨q₁, hp⟩, hstop⟩
    refine run_append_of_error ?_ r
    rw [run_append_of_ok hp] at hstop ⊢
    cases hnext : q₁.next u with
    | error v =>
        obtain rfl := eq_of_next_eq_error hnext
        exact run_cons_of_error hnext []
    | ok q₂ => exact absurd ⟨q₂, run_cons_of_ok hnext []⟩ hstop

/-- A reading agrees with the run over its tokens from `q`: what it has read
takes the run to `q'`, and its error is the verdict. -/
def Agrees {α : Type} (q q' : Awaited) (ts : List Token) :
    Except ParseError α × List Token → Prop
  | (.ok _, rest) => q.run ts = q'.run rest
  | (.error e, _) => verdict (q.run ts) = .error e

variable {α β : Type} {rest : List Token} {found : Except ParseError α × List Token}

theorem Agrees.of_run_eq (h : q.run ts = q₁.run rest) (hfound : Agrees q₁ q' rest found) :
    Agrees q q' ts found := by
  obtain ⟨_ | a, left⟩ := found
  all_goals
    rw [Agrees, h]
    exact hfound

theorem Agrees.map (f : α → β) (h : Agrees q q' ts found) :
    Agrees q q' ts (found.1.map f, found.2) := by
  obtain ⟨_ | a, left⟩ := found
  all_goals exact h

theorem agrees_of_next_eq_error (h : q.next t = .error t) (left : List Token) :
    Agrees q q' (t :: rest) ((.error (.unexpectedToken t) : Except ParseError α), left) := by
  rw [Agrees, run_cons_of_error h]
  rfl

-- The productions are proved together; the measures order those that get the same tokens.
mutual

/-- At a closing bracket reading an expression fails, so there no call may be open. -/
theorem agrees_readExpression (depth : Nat) (t : Token) (rest : List Token)
    (hclosing : t.kind = .closing → depth = 0) :
    Agrees (.expression depth) (.expression depth) (t :: rest)
      (readExpression (t :: rest)).view := by
  obtain ⟨kind, text⟩ := t
  rw [view_readExpression_cons]
  cases kind with
  | number => exact run_cons_of_ok rfl rest
  | string => exact run_cons_of_ok rfl rest
  | opening => exact (agrees_readCall depth rest).of_run_eq (run_cons_of_ok rfl rest)
  | closing =>
      obtain rfl := hclosing rfl
      exact agrees_of_next_eq_error rfl rest
  | name => exact agrees_of_next_eq_error rfl rest
termination_by 3 * (rest.length + 1)
decreasing_by omega

theorem agrees_readCall (depth : Nat) (ts : List Token) :
    Agrees (.name depth) (.expression depth) ts (readCall ts).view := by
  match ts with
  | [] =>
      rw [view_readCall_nil]
      rfl
  | ⟨kind, text⟩ :: rest =>
      rw [view_readCall_cons]
      cases kind with
      | name =>
          have harguments := (agrees_readArguments depth rest).map (Source.call text)
          exact harguments.of_run_eq (run_cons_of_ok rfl rest)
      | _ => exact agrees_of_next_eq_error rfl rest
termination_by 3 * ts.length + 2
decreasing_by simp only [List.length_cons]; omega

theorem agrees_readArguments (depth : Nat) (ts : List Token) :
    Agrees (.expression (depth + 1)) (.expression depth) ts (readArguments ts).view := by
  match ts with
  | [] =>
      rw [view_readArguments_nil]
      rfl
  | t :: rest =>
      rw [view_readArguments_cons]
      split
      · next hkind =>
        obtain ⟨kind, text⟩ := t
        obtain rfl : kind = .closing := hkind
        exact run_cons_of_ok rfl rest
      · next hkind =>
        -- A closing bracket was dealt with above, so the expression may stand inside of a call.
        have hfirst := agrees_readExpression (depth + 1) t rest (fun h => absurd h hkind)
        split
        · next hview =>
          rw [hview] at hfirst
          exact hfirst
        · next param left hview =>
          rw [hview] at hfirst
          have hleft := length_lt_of_view_readExpression hview
          exact ((agrees_readArguments depth left).map (param :: ·)).of_run_eq hfirst
termination_by 3 * ts.length + 1
decreasing_by
  · simp only [List.length_cons]; omega
  · omega

end

theorem agrees_readBody (ts : List Token) : Agrees closed closed ts (readBody ts, []) := by
  induction hn : ts.length using Nat.strongRecOn generalizing ts with
  | ind n ih =>
      cases ts with
      | nil =>
          rw [readBody_nil]
          rfl
      | cons t rest =>
          have hfirst := agrees_readExpression 0 t rest (fun _ => rfl)
          rw [readBody_cons]
          split
          · next hview =>
            rw [hview] at hfirst
            exact hfirst
          · next item left hview =>
            rw [hview] at hfirst
            have hleft : left.length < n := hn ▸ length_lt_of_view_readExpression hview
            exact ((ih left.length hleft left rfl).map (item :: ·)).of_run_eq hfirst

theorem verdict_run (ts : List Token) :
    verdict (closed.run ts) = (parse ts).map fun _ => () := by
  have h := (agrees_readBody ts).map Source.program
  rw [parse]
  cases hbody : readBody ts with
  | error e =>
      rw [hbody] at h
      exact h
  | ok body =>
      rw [hbody] at h
      exact verdict_eq_ok_iff.mpr h

end Awaited

open Awaited

def Accepted (ts : List Token) : Prop :=
  ∃ t, parse ts = .ok t

theorem accepted_iff (ts : List Token) : Accepted ts ↔ closed.run ts = .ok closed := by
  rw [← verdict_eq_ok_iff, verdict_run, Accepted]
  cases parse ts <;> simp [Except.map]

theorem parse_eq_error_iff (ts : List Token) (e : ParseError) :
    parse ts = .error e ↔ verdict (closed.run ts) = .error e := by
  rw [verdict_run]
  cases parse ts <;> simp [Except.map]

/-- Errors stand where the tokens stop being the beginning of a program: at the
first token that no program goes on with, and at the end where the tokens are
the beginning of a program and not a whole one. -/
theorem parse_error_iff_viable (ts : List Token) :
    (parse ts = .error .unexpectedEnd ↔ ¬Accepted ts ∧ ∃ ext, Accepted (ts ++ ext)) ∧
      ∀ k, parse ts = .error (.unexpectedToken k) ↔
        ∃ p r, ts = p ++ [k] ++ r ∧ (∃ ext, Accepted (p ++ ext)) ∧
          ¬∃ ext, Accepted (p ++ [k] ++ ext) := by
  simp only [parse_eq_error_iff, accepted_iff, exists_run_append_eq_closed_iff]
  refine ⟨verdict_eq_unexpectedEnd_iff, fun k => ?_⟩
  rw [verdict_eq_unexpectedToken_iff]
  exact run_eq_error_iff

end Polish
