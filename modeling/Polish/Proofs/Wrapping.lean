import Polish.Proofs.Bracketing
import Polish.Proofs.Census
import Polish.Proofs.Lowering

/-!
What lowering does to a walk.  A lowered tree is walked like the tree it comes
from, except that every call directly below the root has a statement around it.

All of it is read off outlines.  Lowering an expression keeps its outline, and
an item of a program is its outline with a statement around a call (`wrapped`).
The names and phases of calls to a recorder do not depend on the numbers, so the
calls of the two walks can be compared although they number nodes differently.
-/

namespace Polish

open Walk Outline
open Source hiding calls

/-- An outline, with a statement around it if it is that of a call. -/
def Outline.wrapped : Outline → Outline
  | node kind os =>
    if kind = Kind.callExpression.name then
      node Kind.expressionStatement.name [node kind os]
    else node kind os

theorem kind_argument (t : Source) : t.argument.kind = t.kind := by
  cases t <;> rfl

theorem children_argument (t : Source) : t.argument.children = argumentList t.children := by
  cases t <;> rfl

theorem outline_argumentList (ts : List Source) :
    (argumentList ts).map outline = ts.map outline := by
  induction ts using Walkable.forest_induction with
  | nil => rfl
  | cons t rest iht ihrest =>
      have hargument : outline t.argument = outline t := by
        rw [Vocabulary.outline_eq, Vocabulary.outline_eq]
        change node t.argument.kind.name (t.argument.children.map outline) =
          node t.kind.name (t.children.map outline)
        rw [kind_argument, children_argument, iht t.children rfl]
      rw [argumentList, List.map_cons, List.map_cons, hargument, ihrest]

theorem outline_argument (t : Source) : outline t.argument = outline t :=
  List.singleton_inj.mp (outline_argumentList [t])

theorem wrapped_outline (t : Source) :
    (outline t).wrapped =
      if t.kind = .callExpression then node Kind.expressionStatement.name [outline t]
      else outline t := by
  have houtline : outline t = node t.kind.name (t.children.map outline) := Vocabulary.outline_eq t
  simp only [houtline, wrapped, Kind.name_inj]

theorem outline_item (t : Source) : outline t.item = (outline t).wrapped := by
  rw [wrapped_outline]
  cases t with
  | call name params =>
      rw [item, Vocabulary.outline_eq]
      change node Kind.expressionStatement.name [outline (argument (.call name params))] = _
      rw [outline_argument]
      rfl
  | _ => exact outline_argument _

def WalkEvent.mark (e : WalkEvent) : String × Phase :=
  (e.kind, e.phase)

def Callback.mark (c : Callback) : String × Phase :=
  (c.kind, c.phase)

/-- A call to a recorder as it shows in the walk of the lowered tree: with a
statement around it if it is a call directly below the root. -/
def Callback.marks (c : Callback) : List (String × Phase) :=
  if c.kind = Kind.callExpression.name ∧ c.parent = some 0 then
    match c.phase with
    | .enter => [(Kind.expressionStatement.name, .enter), c.mark]
    | .exit => [c.mark, (Kind.expressionStatement.name, .exit)]
  else [c.mark]

theorem map_mark_callsList (os : List Outline) (p q : Option Nat) (i j : Nat) :
    (callsList os p i).map Callback.mark = (callsList os q j).map Callback.mark := by
  induction os using Outline.forest_induction generalizing p q i j with
  | nil => rfl
  | node kind os rest ihos ihrest =>
      rw [callsList_node_cons, callsList_node_cons, List.map_cons, List.map_cons, List.map_append,
        List.map_append, List.map_cons, List.map_cons, ihos (some i) (some j) (i + 1) (j + 1),
        ihrest p q (i + (1 + sizeList os)) (j + (1 + sizeList os))]
      rfl

/-- Below the items nothing is wrapped. -/
theorem flatMap_marks_callsList (os : List Outline) {p i : Nat} (hp : 0 < p) (hi : p < i) :
    (callsList os (some p) i).flatMap Callback.marks =
      (callsList os (some p) i).map Callback.mark := by
  have hmarks : ∀ c ∈ callsList os (some p) i, c.marks = [c.mark] := by
    intro c hc
    obtain ⟨q, hq, hle, -⟩ := parent_of_mem_callsList hc hi
    have hne : c.parent ≠ some 0 := by
      rw [hq, Ne, Option.some.injEq]
      omega
    exact if_neg fun h => hne h.2
  rw [List.map_eq_flatMap, List.flatMap_def, List.flatMap_def, List.map_congr_left hmarks]

theorem map_mark_calls_wrapped (o : Outline) {i : Nat} (hi : 0 < i) (j : Nat) :
    (o.wrapped.calls (some 0) j).map Callback.mark =
      (o.calls (some 0) i).flatMap Callback.marks := by
  obtain ⟨kind, os⟩ := o
  have hbelow := flatMap_marks_callsList os hi (Nat.lt_succ_self i)
  rw [calls, List.flatMap_cons, List.flatMap_append, hbelow]
  by_cases hkind : kind = Kind.callExpression.name
  · simp only [wrapped, hkind, if_true, calls, callsList_singleton]
    rw [map_mark_callsList os (some i) (some (j + 1)) (i + 1) (j + 1 + 1)]
    simp [Callback.marks, Callback.mark]
  · simp only [wrapped, hkind, if_false, calls]
    rw [map_mark_callsList os (some i) (some j) (i + 1) (j + 1)]
    simp [Callback.marks, Callback.mark, hkind]

theorem map_mark_callsList_wrapped (os : List Outline) {i : Nat} (hi : 0 < i) (j : Nat) :
    (callsList (os.map wrapped) (some 0) j).map Callback.mark =
      (callsList os (some 0) i).flatMap Callback.marks := by
  induction os generalizing i j with
  | nil => rfl
  | cons o os ih =>
      rw [List.map_cons, callsList, callsList, List.map_append, List.flatMap_append,
        map_mark_calls_wrapped o hi, ih (Nat.add_pos_left hi o.size)]

/-! ### Statements stand around calls -/

/-- Every entry of a statement is followed at once by the entry of a call, and
the exit of that call by the exit of the statement. -/
def Wraps (events : List WalkEvent) : Prop :=
  ∀ before e after, events = before ++ e :: after → e.kind = Kind.expressionStatement.name →
    e.phase = .enter → ∃ id inner rest,
      after = ⟨id, Kind.callExpression.name, .enter⟩ ::
        (inner ++ ⟨id, Kind.callExpression.name, .exit⟩ ::
          ⟨e.id, Kind.expressionStatement.name, .exit⟩ :: rest) ∧
      ∀ x ∈ inner, x.id ≠ id

theorem wraps_of_forall {events : List WalkEvent}
    (h : ∀ e ∈ events, e.mark ≠ (Kind.expressionStatement.name, .enter)) : Wraps events := by
  rintro before e after rfl hkind hphase
  refine absurd (Prod.ext hkind hphase) (h e ?_)
  exact List.mem_append_right before List.mem_cons_self

theorem Wraps.append {xs ys : List WalkEvent} (hxs : Wraps xs) (hys : Wraps ys) :
    Wraps (xs ++ ys) := by
  intro before e after h hkind hphase
  rcases List.append_eq_append_iff.mp h with ⟨as, hbefore, hys'⟩ | ⟨bs, hxs', hafter⟩
  · exact hys as e after hys' hkind hphase
  · cases bs with
    | nil => exact hys [] e after hafter.symm hkind hphase
    | cons b bs =>
        obtain ⟨rfl, rfl⟩ := List.cons.inj hafter
        obtain ⟨id, inner, rest, rfl, hinner⟩ := hxs before e bs hxs' hkind hphase
        exact ⟨id, inner, rest ++ ys, by simp, hinner⟩

theorem kind_ne_of_mem_callsList {ts : List Source} {p : Option Nat} {i : Nat} {c : Callback}
    (hc : c ∈ callsList (ts.map outline) p i) : c.kind ≠ Kind.expressionStatement.name := by
  induction ts using Walkable.forest_induction generalizing p i with
  | nil => cases hc
  | cons t rest iht ihrest =>
      have hkind : t.kind.name ≠ Kind.expressionStatement.name := by
        rw [Ne, Kind.name_inj]
        cases t <;> exact Kind.noConfusion
      rw [List.map_cons, Vocabulary.outline_eq, callsList_node_cons, List.mem_cons, List.mem_append,
        List.mem_cons] at hc
      rcases hc with rfl | hc | rfl | hc
      · exact hkind
      · exact iht t.children rfl hc
      · exact hkind
      · exact ihrest hc

theorem wraps_statement {id id' : Nat} {inner : List WalkEvent}
    (hkind : ∀ x ∈ inner, x.kind ≠ Kind.expressionStatement.name) (hid : ∀ x ∈ inner, x.id ≠ id') :
    Wraps (⟨id, Kind.expressionStatement.name, .enter⟩ ::
      ⟨id', Kind.callExpression.name, .enter⟩ :: (inner ++
        [⟨id', Kind.callExpression.name, .exit⟩, ⟨id, Kind.expressionStatement.name, .exit⟩])) := by
  intro before e after h hekind hephase
  cases before with
  | nil =>
      obtain ⟨rfl, rfl⟩ := List.cons.inj h
      exact ⟨id', inner, [], rfl, hid⟩
  | cons b before =>
      -- Behind the first event no statement is entered.
      refine wraps_of_forall ?_ before e after (List.cons.inj h).2 hekind hephase
      intro x hx
      rw [List.mem_cons, List.mem_append, List.mem_cons, List.mem_singleton] at hx
      rcases hx with rfl | hx | rfl | rfl
      · simp [WalkEvent.mark, Kind.name]
      · exact fun h => hkind x hx (congrArg Prod.fst h)
      · simp [WalkEvent.mark]
      · simp [WalkEvent.mark]

theorem map_event_calls_statement (t : Source) (j : Nat) (ht : t.kind = .callExpression) :
    ((node Kind.expressionStatement.name [outline t]).calls (some 0) j).map Callback.event =
      ⟨j, Kind.expressionStatement.name, .enter⟩ :: ⟨j + 1, Kind.callExpression.name, .enter⟩ ::
        ((callsList (t.children.map outline) (some (j + 1)) (j + 1 + 1)).map Callback.event ++
          [⟨j + 1, Kind.callExpression.name, .exit⟩,
            ⟨j, Kind.expressionStatement.name, .exit⟩]) := by
  have houtline : outline t = node Kind.callExpression.name (t.children.map outline) := by
    rw [← ht]
    exact Vocabulary.outline_eq t
  simp [houtline, calls, callsList_singleton, Callback.event]

theorem wraps_calls_wrapped (t : Source) (j : Nat) :
    Wraps (((outline t).wrapped.calls (some 0) j).map Callback.event) := by
  rw [wrapped_outline]
  split
  · rename_i hcall
    rw [map_event_calls_statement t j hcall]
    apply wraps_statement
    · rw [List.forall_mem_map]
      exact fun c hc => kind_ne_of_mem_callsList hc
    · rw [List.forall_mem_map]
      intro c hc
      have := (id_of_mem_callsList hc).1
      exact Nat.ne_of_gt this
  · rw [← callsList_singleton]
    apply wraps_of_forall
    rw [List.forall_mem_map]
    intro c hc h
    have hmem : c ∈ callsList ([t].map outline) (some 0) j := hc
    exact kind_ne_of_mem_callsList hmem (congrArg Prod.fst h)

theorem wraps_callsList_wrapped (ts : List Source) (j : Nat) :
    Wraps ((callsList ((ts.map outline).map wrapped) (some 0) j).map Callback.event) := by
  induction ts generalizing j with
  | nil => exact wraps_of_forall (List.forall_mem_nil _)
  | cons t ts ih =>
      rw [List.map_cons, List.map_cons, callsList, List.map_append]
      exact (wraps_calls_wrapped t j).append (ih _)

theorem occurrences_item (k : Kind) (t : Source) :
    (outline t.item).occurrences k.name =
      (if k = .expressionStatement ∧ t.kind = .callExpression then 1 else 0) +
        (outline t).occurrences k.name := by
  rw [outline_item, wrapped_outline]
  split
  · rename_i hcall
    rw [occurrences, occurrencesList, occurrencesList]
    simp only [Kind.name_inj, hcall, and_true, eq_comm, Nat.add_zero]
  · rename_i hcall
    simp [hcall]

/-- Of all kinds only statements become more, by one for each call among the items. -/
theorem total_occurrences_item (k : Kind) (body : List Source) :
    total (fun t => (outline t).occurrences k.name) (body.map item) =
      (if k = .expressionStatement then body.countP (·.kind = .callExpression) else 0) +
        total (fun t => (outline t).occurrences k.name) body := by
  induction body with
  | nil => simp
  | cons t body ih =>
      rw [List.map_cons, total_cons, total_cons, ih, occurrences_item, List.countP_cons]
      by_cases hk : k = .expressionStatement
      · by_cases ht : t.kind = .callExpression
        · simp only [hk, ht, and_self, if_true, decide_true]
          omega
        · simp only [hk, ht, and_false, if_true, if_false, decide_false, Bool.false_eq_true]
          omega
      · simp only [hk, false_and, if_false]
        omega

theorem total_occurrences_of_programFree {ts : List Source} (hfree : programFreeList ts = true)
    {k : Kind} (hliteral : ¬k.IsLiteral) (hcall : k ≠ .callExpression) :
    total (fun t => (outline t).occurrences k.name) ts = 0 := by
  induction ts using Walkable.forest_induction with
  | nil => rfl
  | cons t rest iht ihrest =>
      rw [programFreeList, Bool.and_eq_true] at hfree
      obtain ⟨hkind, hchildren⟩ : t.kind ≠ k ∧ programFreeList t.children = true := by
        cases t with
        | program body => cases hfree.1
        | number value => exact ⟨fun h => hliteral (.inl h.symm), rfl⟩
        | string value => exact ⟨fun h => hliteral (.inr h.symm), rfl⟩
        | call name params => exact ⟨hcall.symm, hfree.1⟩
      have hname : (Vocabulary.kind t).name ≠ k.name := fun h => hkind (Kind.name_inj.mp h)
      have hbelow : total (fun t => (outline t).occurrences k.name) (Vocabulary.children t) = 0 :=
        iht t.children rfl hchildren
      rw [total_cons, Vocabulary.occurrences_outline, if_neg hname, hbelow, ihrest hfree.2]

/-! ### The two walks -/

/-- The walks of a source tree and of a target tree go together.  Without the
statements they have the same names in the same phases; with them, statements
stand directly around the calls below the root of the source tree, and around
nothing else.  So the counts of nodes are the same but for the statements. -/
structure WalkKept (t : Source) (u : Target) : Prop where
  source_accepted : (EventLog.ofTree t).1 = .ok ()
  target_accepted : (EventLog.ofTree u).1 = .ok ()
  marks_eq : ((EventLog.ofTree u).2.events.toList.filter
      (·.kind ≠ Kind.expressionStatement.name)).map WalkEvent.mark =
    (EventLog.ofTree t).2.events.toList.map WalkEvent.mark
  wraps : Wraps (EventLog.ofTree u).2.events.toList
  marks_eq_flatMap : (EventLog.ofTree u).2.events.toList.map WalkEvent.mark =
    (Recorder.ofTree none t).2.toList.flatMap Callback.marks
  count_eq : ∀ k : Kind, k.IsLiteral ∨ k = .callExpression →
    Vocabulary.count k u = Vocabulary.count k t
  count_program : Vocabulary.count .program u = 1
  count_identifier : Vocabulary.count .identifier u = 0
  count_statement : Vocabulary.count .expressionStatement u =
    t.children.countP (·.kind = .callExpression)
  length_body : ∃ body items, t = .program body ∧ u = .program items ∧ items.length = body.length

theorem map_mark_events {V : Type} [Vocabulary V] (t : V) :
    (EventLog.ofTree t).2.events.toList.map WalkEvent.mark =
      ((outline t).calls none 0).map Callback.mark := by
  rw [events_of_vocabulary, List.map_map]
  rfl

theorem filter_marks {c : Callback} (hc : c.kind ≠ Kind.expressionStatement.name) :
    c.marks.filter (·.1 ≠ Kind.expressionStatement.name) = [c.mark] := by
  obtain ⟨phase, kind, id, parent⟩ := c
  unfold Callback.marks
  split
  · cases phase <;> simp [Callback.mark, hc]
  · simp [Callback.mark, hc]

theorem outline_program (body : List Source) :
    outline (Source.program body) = node Kind.program.name (body.map outline) :=
  Vocabulary.outline_eq _

theorem outline_program_items (body : List Source) :
    outline (Target.program (body.map item)) =
      node Kind.program.name ((body.map outline).map wrapped) := by
  rw [Vocabulary.outline_eq]
  change node Kind.program.name ((body.map item).map outline) = _
  simp only [List.map_map, Function.comp_def, outline_item]

theorem count_program_items (k : Kind) (body : List Source) :
    Vocabulary.count k (Target.program (body.map item)) =
      (if k = .expressionStatement then body.countP (·.kind = .callExpression) else 0) +
        Vocabulary.count k (Source.program body) := by
  rw [Vocabulary.count_eq_occurrences, Vocabulary.count_eq_occurrences,
    Vocabulary.occurrences_outline, Vocabulary.occurrences_outline]
  change (if Kind.program.name = k.name then 1 else 0) + total _ (body.map item) =
    _ + ((if Kind.program.name = k.name then 1 else 0) + total _ body)
  rw [total_occurrences_item]
  omega

theorem count_program_of_programFree {body : List Source} (hfree : programFreeList body = true)
    {k : Kind} (hliteral : ¬k.IsLiteral) (hcall : k ≠ .callExpression) :
    Vocabulary.count k (Source.program body) = if Kind.program = k then 1 else 0 := by
  rw [Vocabulary.count_eq_occurrences, Vocabulary.occurrences_outline]
  change (if Kind.program.name = k.name then 1 else 0) + total _ body = _
  rw [total_occurrences_of_programFree hfree hliteral hcall]
  simp only [Kind.name_inj, Nat.add_zero]

theorem map_mark_calls_items (body : List Source) :
    ((outline (Target.program (body.map item))).calls none 0).map Callback.mark =
      ((outline (Source.program body)).calls none 0).flatMap Callback.marks := by
  rw [outline_program, outline_program_items, calls, calls, List.map_cons, List.map_append,
    map_mark_callsList_wrapped _ Nat.one_pos, List.flatMap_cons, List.flatMap_append]
  rfl

theorem filter_mark_calls_items (body : List Source) :
    (((outline (Target.program (body.map item))).calls none 0).map Callback.mark).filter
        (·.1 ≠ Kind.expressionStatement.name) =
      ((outline (Source.program body)).calls none 0).map Callback.mark := by
  have hmarks : ∀ c ∈ (outline (Source.program body)).calls none 0,
      c.marks.filter (·.1 ≠ Kind.expressionStatement.name) = [c.mark] := by
    intro c hc
    rw [← callsList_singleton] at hc
    have hmem : c ∈ callsList ([Source.program body].map outline) none 0 := hc
    exact filter_marks (kind_ne_of_mem_callsList hmem)
  rw [map_mark_calls_items, List.filter_flatMap, List.map_eq_flatMap, List.flatMap_def,
    List.flatMap_def, List.map_congr_left hmarks]

theorem wraps_calls_items (body : List Source) :
    Wraps (((outline (Target.program (body.map item))).calls none 0).map Callback.event) := by
  have hprogram : ∀ phase, Wraps [⟨0, Kind.program.name, phase⟩] := by
    intro phase
    refine wraps_of_forall (List.forall_mem_singleton.mpr ?_)
    simp [WalkEvent.mark, Kind.name]
  rw [outline_program_items, calls, List.map_cons, List.map_append]
  exact (hprogram .enter).append ((wraps_callsList_wrapped body 1).append (hprogram .exit))

/-- Lowering keeps the walk of a tree. -/
theorem lower_keeps_walk {t : Source} {u : Target} (h : lower t = .ok u) : WalkKept t u := by
  obtain ⟨body, rfl, hfree, rfl⟩ := lower_eq_ok_iff.mp h
  constructor
  · rw [eventLog_of_vocabulary]
  · rw [eventLog_of_vocabulary]
  · rw [map_mark_events, ← filter_mark_calls_items body, ← map_mark_events, List.filter_map]
    rfl
  · rw [events_of_vocabulary]
    exact wraps_calls_items body
  · rw [map_mark_events, recorder_ofTree_of_known (known_of_vocabulary _)]
    exact map_mark_calls_items body
  · intro k hk
    have hstatement : k ≠ .expressionStatement := by
      rcases hk with (rfl | rfl) | rfl <;> exact Kind.noConfusion
    rw [count_program_items, if_neg hstatement, Nat.zero_add]
  · rw [count_program_items, count_program_of_programFree hfree (by simp [Kind.IsLiteral]) (by simp)]
    rfl
  · rw [count_program_items, count_program_of_programFree hfree (by simp [Kind.IsLiteral]) (by simp)]
    rfl
  · rw [count_program_items, count_program_of_programFree hfree (by simp [Kind.IsLiteral]) (by simp)]
    rfl
  · exact ⟨body, body.map item, rfl, rfl, List.length_map _⟩

/-- A call inside a call, with a literal behind them. -/
theorem lower_keeps_walk_two_items :
    lower (.program [.call "f" [.call "g" []], .number "1"]) =
        .ok (.program [.statement (.call ⟨"f"⟩ [.call ⟨"g"⟩ []]), .number "1"]) ∧
      WalkKept (.program [.call "f" [.call "g" []], .number "1"])
        (.program [.statement (.call ⟨"f"⟩ [.call ⟨"g"⟩ []]), .number "1"]) := by
  have hlower : lower (.program [.call "f" [.call "g" []], .number "1"]) =
      .ok (.program [.statement (.call ⟨"f"⟩ [.call ⟨"g"⟩ []]), .number "1"]) :=
    lower_eq_ok_iff.mpr ⟨_, rfl, rfl, rfl⟩
  exact ⟨hlower, lower_keeps_walk hlower⟩

end Polish
