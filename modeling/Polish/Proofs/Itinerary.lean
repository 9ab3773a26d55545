import Polish.Source.Visitor

/-!
Itineraries: what a walk does before anyone refuses anything.

A walk is a recursion that may stop in its middle.  To say where it stops, the
calls it would make are put in a row first.  An itinerary is such a row, closed
by the ending of a walk in which every call is accepted.  `tour` reads it off a
tree, with one rule for each construct of the walk, and knows no visitor.  To
`follow` an itinerary is to make its calls in order up to the first that is
refused.

`walk_eq_follow` says that a walk follows the itinerary of its tree, for every
visitor.  It turns a question about a walk into one about a row of calls, so
that later proofs need not open the recursion again.
-/

namespace Polish

open Fallible

variable {N σ ρ α : Type}

/-- A call to a visitor: at which of the two times, for which node and below
which parent. -/
structure Visit (N : Type) where
  phase : Phase
  here : Located N
  parent : Option (Located N)

namespace Visitor

def act (v : Visitor N σ) (a : Visit N) : VisitM σ Unit :=
  match a.phase with
  | .enter => v.enter a.here a.parent
  | .exit => v.exit a.here a.parent

@[simp] theorem act_enter (v : Visitor N σ) (here : Located N) (parent : Option (Located N)) :
    v.act ⟨.enter, here, parent⟩ = v.enter here parent := rfl

@[simp] theorem act_exit (v : Visitor N σ) (here : Located N) (parent : Option (Located N)) :
    v.act ⟨.exit, here, parent⟩ = v.exit here parent := rfl

/-- The visitor that refuses nothing and lists the calls made to it. -/
def listing : Visitor N (Array (Visit N)) where
  enter here parent := modify (·.push ⟨.enter, here, parent⟩)
  exit here parent := modify (·.push ⟨.exit, here, parent⟩)

end Visitor

/-- Calls in the order in which they are to be made, and how it ends when all
of them are accepted. -/
inductive Itinerary (N ρ : Type)
  | stop (ending : Except WalkError ρ)
  | call (a : Visit N) (rest : Itinerary N ρ)

namespace Itinerary

def visits : Itinerary N ρ → List (Visit N)
  | stop _ => []
  | call a rest => a :: rest.visits

def ending : Itinerary N ρ → Except WalkError ρ
  | stop ending => ending
  | call _ rest => rest.ending

/-- One itinerary after another, unless the first ends in an error. -/
def andThen : Itinerary N α → (α → Itinerary N ρ) → Itinerary N ρ
  | stop (.error e), _ => stop (.error e)
  | stop (.ok a), next => next a
  | call a rest, next => call a (rest.andThen next)

theorem visits_andThen {i : Itinerary N α} {a : α} (h : i.ending = .ok a)
    (next : α → Itinerary N ρ) : (i.andThen next).visits = i.visits ++ (next a).visits := by
  induction i with
  | stop ending =>
      obtain rfl : ending = .ok a := h
      rfl
  | call b rest ih => exact congrArg (b :: ·) (ih h)

theorem ending_andThen {i : Itinerary N α} {a : α} (h : i.ending = .ok a)
    (next : α → Itinerary N ρ) : (i.andThen next).ending = (next a).ending := by
  induction i with
  | stop ending =>
      obtain rfl : ending = .ok a := h
      rfl
  | call b rest ih => exact ih h

theorem visits_andThen_of_error {i : Itinerary N α} {e : WalkError} (h : i.ending = .error e)
    (next : α → Itinerary N ρ) : (i.andThen next).visits = i.visits := by
  induction i with
  | stop ending =>
      obtain rfl : ending = .error e := h
      rfl
  | call b rest ih => exact congrArg (b :: ·) (ih h)

theorem ending_andThen_of_error {i : Itinerary N α} {e : WalkError} (h : i.ending = .error e)
    (next : α → Itinerary N ρ) : (i.andThen next).ending = .error e := by
  induction i with
  | stop ending =>
      obtain rfl : ending = .error e := h
      rfl
  | call b rest ih => exact ih h

/-- Make the calls in order up to the first that is refused. -/
def follow (act : Visit N → VisitM σ Unit) : Itinerary N ρ → σ → Except WalkError ρ × σ
  | stop ending, s => (ending, s)
  | call a rest, s =>
    match outcome (act a) s with
    | (.error e, s) => (.error e, s)
    | (.ok (), s) => rest.follow act s

theorem follow_andThen (act : Visit N → VisitM σ Unit) (i : Itinerary N α)
    (next : α → Itinerary N ρ) (s : σ) :
    (i.andThen next).follow act s =
      match i.follow act s with
      | (.error e, s) => (.error e, s)
      | (.ok a, s) => (next a).follow act s := by
  induction i generalizing s with
  | stop ending => cases ending <;> rfl
  | call a rest ih =>
      rw [andThen, follow, follow]
      obtain ⟨_ | _, s⟩ := outcome (act a) s
      · rfl
      · exact ih s

theorem follow_of_accepted {act : Visit N → VisitM σ Unit} {update : σ → Visit N → σ}
    (hact : ∀ a s, outcome (act a) s = (.ok (), update s a)) (i : Itinerary N ρ) (s : σ) :
    i.follow act s = (i.ending, i.visits.foldl update s) := by
  induction i generalizing s with
  | stop ending => rfl
  | call a rest ih =>
      rw [follow, hact]
      exact ih (update s a)

end Itinerary

open Itinerary

/-- Induction over forests of trees that can be walked: a tree in front, with
the children that its child rule gives, and the trees behind it. -/
@[elab_as_elim] theorem Walkable.forest_induction [Walkable N] {motive : List N → Prop}
    (nil : motive [])
    (cons : ∀ n rest, (∀ cs, children n = .ok cs → motive cs) → motive rest →
      motive (n :: rest)) (forest : List N) : motive forest :=
  match forest with
  | [] => nil
  | n :: rest =>
      cons n rest (fun cs _ => forest_induction nil cons cs) (forest_induction nil cons rest)
termination_by total size forest
decreasing_by
  · have := size_children ‹children n = .ok cs›
    rw [total_cons]
    omega
  · have := size_pos n
    rw [total_cons]
    omega

namespace Walk

variable [Walkable N]

mutual

/-- The itinerary of a tree whose root gets the number `next`; it ends with the
first number not given away. -/
def tour (n : N) (parent : Option (Located N)) (next : Nat) : Itinerary N Nat :=
  match _h : Walkable.children n with
  | .error e => call ⟨.enter, ⟨n, next⟩, parent⟩ (stop (.error e))
  | .ok cs =>
    call ⟨.enter, ⟨n, next⟩, parent⟩ <|
      (tourAll cs ⟨n, next⟩ (next + 1)).andThen fun after =>
        call ⟨.exit, ⟨n, next⟩, parent⟩ (stop (.ok after))
termination_by 2 * Walkable.size n
decreasing_by
  have := Walkable.size_children _h
  omega

def tourAll (ns : List N) (parent : Located N) (next : Nat) : Itinerary N Nat :=
  match ns with
  | [] => stop (.ok next)
  | n :: rest => (tour n (some parent) next).andThen fun after => tourAll rest parent after
termination_by 2 * total Walkable.size ns + 1
decreasing_by
  · rw [total_cons]
    omega
  · have := Walkable.size_pos n
    rw [total_cons]
    omega

end

theorem tour_of_error {n : N} {e : WalkError} (h : Walkable.children n = .error e)
    (parent : Option (Located N)) (next : Nat) :
    tour n parent next = call ⟨.enter, ⟨n, next⟩, parent⟩ (stop (.error e)) := by
  rw [tour]
  split <;> simp_all

theorem tour_of_ok {n : N} {cs : List N} (h : Walkable.children n = .ok cs)
    (parent : Option (Located N)) (next : Nat) :
    tour n parent next =
      call ⟨.enter, ⟨n, next⟩, parent⟩
        ((tourAll cs ⟨n, next⟩ (next + 1)).andThen fun after =>
          call ⟨.exit, ⟨n, next⟩, parent⟩ (stop (.ok after))) := by
  rw [tour]
  split <;> simp_all

theorem tourAll_nil (parent : Located N) (next : Nat) :
    tourAll [] parent next = stop (.ok next) := by
  rw [tourAll]

theorem tourAll_cons (n : N) (rest : List N) (parent : Located N) (next : Nat) :
    tourAll (n :: rest) parent next =
      (tour n (some parent) next).andThen fun after => tourAll rest parent after := by
  rw [tourAll]

def itinerary (root : N) : Itinerary N Unit :=
  (tour root none 0).andThen fun _ => stop (.ok ())

theorem outcome_visit_of_children (v : Visitor N σ) (n : N)
    (hchildren : ∀ cs, Walkable.children n = .ok cs → ∀ parent next s,
      outcome (visitAll v cs parent next) s = (tourAll cs parent next).follow v.act s)
    (parent : Option (Located N)) (next : Nat) (s : σ) :
    outcome (visit v n parent next) s = (tour n parent next).follow v.act s := by
  rw [outcome_visit]
  cases hcs : Walkable.children n with
  | error e =>
      rw [tour_of_error hcs, follow, Visitor.act_enter]
      rfl
  | ok cs =>
      rw [tour_of_ok hcs, follow, Visitor.act_enter]
      obtain ⟨_ | _, s⟩ := outcome (v.enter ⟨n, next⟩ parent) s
      · rfl
      · simp only [follow_andThen, follow, Visitor.act_exit, hchildren cs hcs]
        obtain ⟨_ | _, s⟩ := (tourAll cs ⟨n, next⟩ (next + 1)).follow v.act s <;> rfl

theorem outcome_visitAll_eq_follow (v : Visitor N σ) (ns : List N) (parent : Located N)
    (next : Nat) (s : σ) :
    outcome (visitAll v ns parent next) s = (tourAll ns parent next).follow v.act s := by
  induction ns using Walkable.forest_induction generalizing parent next s with
  | nil => rw [outcome_visitAll_nil, tourAll_nil, follow]
  | cons n rest ihn ihrest =>
      rw [outcome_visitAll_cons, tourAll_cons, follow_andThen, outcome_visit_of_children v n ihn]
      obtain ⟨_ | _, s⟩ := (tour n (some parent) next).follow v.act s
      · rfl
      · exact ihrest ..

end Walk

open Walk

/-- Every walk follows the itinerary of its tree. -/
theorem walk_eq_follow [Walkable N] (v : Visitor N σ) (root : N) (s : σ) :
    walk v root s = (itinerary root).follow v.act s := by
  have hvisit : outcome (visit v root none 0) s = (tour root none 0).follow v.act s :=
    outcome_visit_of_children v root (fun cs _ => outcome_visitAll_eq_follow v cs) none 0 s
  rw [walk, itinerary, follow_andThen, hvisit]
  obtain ⟨_ | _, s'⟩ := (tour root none 0).follow v.act s <;> rfl

theorem walk_listing [Walkable N] (root : N) :
    walk Visitor.listing root #[] =
      ((itinerary root).ending, (itinerary root).visits.toArray) := by
  have hact : ∀ (a : Visit N) s, outcome (Visitor.listing.act a) s = (.ok (), s.push a) := by
    rintro ⟨_ | _, here, parent⟩ s <;> rfl
  rw [walk_eq_follow, follow_of_accepted hact, List.foldl_push_eq_append']
  simp

/-! ### Where a walk stops -/

/-- From the state `s` the calls are all accepted, one after another, and the
last of them leaves the state `s'`. -/
inductive Accepts (act : Visit N → VisitM σ Unit) : σ → List (Visit N) → σ → Prop
  | nil {s : σ} : Accepts act s [] s
  | cons {a : Visit N} {as : List (Visit N)} {s s₁ s' : σ}
      (ha : outcome (act a) s = (.ok (), s₁)) (h : Accepts act s₁ as s') :
      Accepts act s (a :: as) s'

/-- Of the calls `plan` those up to the first refusal are made, in order and
with the state handed from one to the next.  The ending is the error of the
call that was refused; if there is none, all calls are made and the ending is
`last`. -/
inductive UpToRefusal (act : Visit N → VisitM σ Unit) (plan : List (Visit N))
    (last : Except WalkError Unit) (s : σ) :
    List (Visit N) → Except WalkError Unit → σ → Prop
  | through {s' : σ} (h : Accepts act s plan s') : UpToRefusal act plan last s plan last s'
  | refused {before after : List (Visit N)} {a : Visit N} {e : WalkError} {s₁ s' : σ}
      (hplan : plan = before ++ a :: after) (h : Accepts act s before s₁)
      (ha : outcome (act a) s₁ = (.error e, s')) :
      UpToRefusal act plan last s (before ++ [a]) (.error e) s'

theorem UpToRefusal.cons {act : Visit N → VisitM σ Unit} {plan calls : List (Visit N)}
    {last ending : Except WalkError Unit} {a : Visit N} {s s₁ s' : σ}
    (ha : outcome (act a) s = (.ok (), s₁)) (h : UpToRefusal act plan last s₁ calls ending s') :
    UpToRefusal act (a :: plan) last s (a :: calls) ending s' := by
  cases h with
  | through h => exact .through (.cons ha h)
  | @refused before after b e s₂ _ hplan h hb =>
      rw [hplan, ← List.cons_append, ← List.cons_append]
      exact .refused rfl (.cons ha h) hb

/-- Do something and keep a note that it was tried, however it ends. -/
def Fallible.noting {ε : Type} (note : α) (x : Fallible ε σ Unit) :
    Fallible ε (σ × Array α) Unit := do
  let (s, notes) ← get
  let (ending, s') := outcome x s
  set (s', notes.push note)
  match ending with
  | .ok () => pure ()
  | .error e => throw e

theorem Fallible.outcome_noting {ε : Type} (note : α) (x : Fallible ε σ Unit) (s : σ)
    (notes : Array α) :
    outcome (noting note x) (s, notes) =
      ((outcome x s).1, (outcome x s).2, notes.push note) := by
  simp only [noting, outcome_bind, outcome_get]
  obtain ⟨_ | _, s'⟩ := outcome x s <;> rfl

/-- Following an itinerary goes up to the first refusal.  If a note is kept of
every call that is made, the notes are of the calls up to there. -/
theorem Itinerary.exists_upToRefusal (act : Visit N → VisitM σ Unit) (note : Visit N → α)
    (i : Itinerary N Unit) (s : σ) (notes : Array α) :
    ∃ calls ending s', UpToRefusal act i.visits i.ending s calls ending s' ∧
      i.follow act s = (ending, s') ∧
      i.follow (fun a => noting (note a) (act a)) (s, notes) =
        (ending, s', notes ++ (calls.map note).toArray) := by
  induction i generalizing s notes with
  | stop ending => exact ⟨[], ending, s, .through .nil, rfl, by simp [follow]⟩
  | call a rest ih =>
      simp only [follow, outcome_noting]
      cases ha : outcome (act a) s with
      | mk first s₁ =>
          cases first with
          | error e => exact ⟨[a], .error e, s₁, .refused rfl .nil ha, rfl, by simp⟩
          | ok =>
              obtain ⟨calls, ending, s', hupto, hfollow, hnotes⟩ := ih s₁ (notes.push (note a))
              refine ⟨a :: calls, ending, s', hupto.cons ha, hfollow, ?_⟩
              simpa using hnotes

/-! ### Visitors under observation -/

namespace Visitor

def noting (v : Visitor N σ) : Visitor N (σ × Array (Visit N)) where
  enter here parent := Fallible.noting ⟨.enter, here, parent⟩ (v.enter here parent)
  exit here parent := Fallible.noting ⟨.exit, here, parent⟩ (v.exit here parent)

theorem act_noting (v : Visitor N σ) : v.noting.act = fun a => Fallible.noting a (v.act a) := by
  funext ⟨phase, here, parent⟩
  cases phase <;> rfl

end Visitor

namespace SourceVisitor

/-- The action for a phase and a kind, among those that source trees have. -/
def action (v : SourceVisitor σ) : Phase → Kind → SourceAction σ
  | .enter, .program => v.enterProgram
  | .exit, .program => v.exitProgram
  | .enter, .numberLiteral => v.enterNumber
  | .exit, .numberLiteral => v.exitNumber
  | .enter, .stringLiteral => v.enterString
  | .exit, .stringLiteral => v.exitString
  | .enter, .callExpression => v.enterCall
  | .exit, .callExpression => v.exitCall
  | _, _ => fun _ _ => pure ()

def act (v : SourceVisitor σ) (a : Visit Source) : VisitM σ Unit :=
  v.action a.phase a.here.node.kind a.here a.parent

theorem act_toVisitor (v : SourceVisitor σ) : v.toVisitor.act = v.act := by
  funext ⟨phase, ⟨node, id⟩, parent⟩
  cases phase <;> cases node <;> rfl

def noted (v : SourceVisitor σ) (phase : Phase) (kind : Kind) :
    SourceAction (σ × Array (Kind × Visit Source)) := fun here parent =>
  Fallible.noting (kind, ⟨phase, here, parent⟩) (v.action phase kind here parent)

def noting (v : SourceVisitor σ) : SourceVisitor (σ × Array (Kind × Visit Source)) where
  enterProgram := v.noted .enter .program
  exitProgram := v.noted .exit .program
  enterNumber := v.noted .enter .numberLiteral
  exitNumber := v.noted .exit .numberLiteral
  enterString := v.noted .enter .stringLiteral
  exitString := v.noted .exit .stringLiteral
  enterCall := v.noted .enter .callExpression
  exitCall := v.noted .exit .callExpression

theorem act_noting (v : SourceVisitor σ) :
    v.noting.act = fun a => Fallible.noting (a.here.node.kind, a) (v.act a) := by
  funext ⟨phase, ⟨node, id⟩, parent⟩
  cases phase <;> cases node <;> rfl

theorem walk_eq_follow (v : SourceVisitor σ) (root : Source) (s : σ) :
    v.walk root s = (itinerary root).follow v.act s := by
  rw [walk, Polish.walk_eq_follow, act_toVisitor]

end SourceVisitor

/-- A walk makes the calls that a visitor refusing nothing gets, up to the first
that is refused, and ends with that refusal.  A visitor of source trees gets
the same calls, each by the action for the kind of its node and by no other. -/
theorem walk_stops_at_first_refusal :
    (∀ {N σ : Type} [Walkable N] (v : Visitor N σ) (root : N) (s : σ),
      ∃ calls ending s',
        UpToRefusal v.act (walk Visitor.listing root #[]).2.toList
          (walk Visitor.listing root #[]).1 s calls ending s' ∧
        walk v root s = (ending, s') ∧
        walk v.noting root (s, #[]) = (ending, s', calls.toArray)) ∧
    ∀ {σ : Type} (v : SourceVisitor σ) (root : Source) (s : σ),
      ∃ calls ending s',
        UpToRefusal v.act (walk Visitor.listing root #[]).2.toList
          (walk Visitor.listing root #[]).1 s calls ending s' ∧
        v.walk root s = (ending, s') ∧
        v.noting.walk root (s, #[]) =
          (ending, s', (calls.map fun a => (a.here.node.kind, a)).toArray) := by
  constructor
  · intro N σ _ v root s
    rw [walk_listing, walk_eq_follow, walk_eq_follow, Visitor.act_noting]
    obtain ⟨calls, ending, s', hupto, hfollow, hnotes⟩ :=
      (itinerary root).exists_upToRefusal v.act id s #[]
    exact ⟨calls, ending, s', hupto, hfollow, by simpa using hnotes⟩
  · intro σ v root s
    rw [walk_listing, v.walk_eq_follow, v.noting.walk_eq_follow, SourceVisitor.act_noting]
    obtain ⟨calls, ending, s', hupto, hfollow, hnotes⟩ :=
      (itinerary root).exists_upToRefusal v.act (fun a => (a.here.node.kind, a)) s #[]
    exact ⟨calls, ending, s', hupto, hfollow, by simpa using hnotes⟩

end Polish
