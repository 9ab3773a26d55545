import Polish.Proofs.Outline
import Polish.Untyped.Walk

/-!
The calls of a walk are brackets around the nodes of its tree.

That calls are bracketed is said in terms of the calls alone: numbers are given
in the order of entry, every number belongs to one entry and to one exit after
it, and what stands between these two is bracketed again.  Which node is the
parent can be seen from the calls before an entry, and the whole tree from all
of them: `readBack` goes through the calls with a stack of open nodes and puts
the outline together.

Everything is proved for the calls of an outline, and a walk has no others.
-/

namespace Polish

open Outline Walk

/-- Every entry is followed by the exit of the same node, with the same parent,
and both what stands between them and what follows is nested. -/
inductive Nested : List Callback → Prop
  | nil : Nested []
  | node {kind : String} {id : Nat} {parent : Option Nat} {inner rest : List Callback}
      (hinner : Nested inner) (hrest : Nested rest) :
      Nested (⟨.enter, kind, id, parent⟩ :: (inner ++ ⟨.exit, kind, id, parent⟩ :: rest))

/-- The nodes entered and not yet left after some calls, the innermost first,
where `nodes` have been open before. -/
def openAfter (nodes : List Nat) (calls : List Callback) : List Nat :=
  calls.foldl
    (fun nodes c =>
      match c.phase with
      | .enter => c.id :: nodes
      | .exit => nodes.erase c.id)
    nodes

theorem openAfter_enter_cons (nodes : List Nat) (kind : String) (id : Nat) (parent : Option Nat)
    (calls : List Callback) :
    openAfter nodes (⟨.enter, kind, id, parent⟩ :: calls) = openAfter (id :: nodes) calls := rfl

theorem openAfter_exit_cons (nodes : List Nat) (kind : String) (id : Nat) (parent : Option Nat)
    (calls : List Callback) :
    openAfter nodes (⟨.exit, kind, id, parent⟩ :: calls) = openAfter (nodes.erase id) calls := rfl

theorem openAfter_append (nodes : List Nat) (earlier later : List Callback) :
    openAfter nodes (earlier ++ later) = openAfter (openAfter nodes earlier) later :=
  List.foldl_append

/-- A node is entered once and left once after that, with one kind and one
parent.  The calls between the two are nested, and the parent is the innermost
node that is open at the entry. -/
def MetTwice (nodes : List Nat) (calls : List Callback) (id : Nat) : Prop :=
  ∃ kind parent before inner after,
    calls = before ++ ⟨.enter, kind, id, parent⟩ :: (inner ++ ⟨.exit, kind, id, parent⟩ :: after) ∧
      (∀ c ∈ before ++ inner ++ after, c.id ≠ id) ∧ Nested inner ∧
      parent = (openAfter nodes before).head?

/-- The open nodes, each with the outlines finished before it below the same
parent, and the outlines finished since the last of them was entered. -/
structure Reader where
  stack : List (Callback × List Outline)
  done : List Outline

/-- An entry opens a node; an exit makes an outline of the innermost open node,
which has to be the one that is left. -/
def Reader.step (r : Reader) (c : Callback) : Option Reader :=
  match c.phase, r.stack with
  | .enter, stack => some ⟨(c, r.done) :: stack, []⟩
  | .exit, [] => none
  | .exit, (opened, before) :: stack =>
    if opened.id = c.id ∧ opened.kind = c.kind then
      some ⟨stack, before ++ [.node c.kind r.done]⟩
    else none

/-- The outlines that calls are the brackets of, unless a node stays open. -/
def readBack (calls : List Callback) : Option (List Outline) := do
  let r ← calls.foldlM Reader.step ⟨[], []⟩
  if r.stack.isEmpty then some r.done else none

/-- The calls are brackets around the nodes of one tree, with the outline `o`. -/
structure Bracketed (o : Outline) (calls : List Callback) : Prop where
  length_eq : calls.length = 2 * o.size
  entered_eq : (calls.filter (·.phase = .enter)).map (·.id) = List.range o.size
  nested : Nested calls
  metTwice : ∀ id < o.size, MetTwice [] calls id
  parent_eq_none_iff : ∀ c ∈ calls, c.parent = none ↔ c.id = 0
  readBack_eq : readBack calls = some [o]

namespace Outline

theorem length_callsList (os : List Outline) (parent : Option Nat) (id : Nat) :
    (callsList os parent id).length = 2 * sizeList os := by
  induction os using forest_induction generalizing parent id with
  | nil => rfl
  | node kind os rest ihos ihrest =>
      simp only [callsList_node_cons, sizeList_node_cons, List.length_cons, List.length_append,
        ihos, ihrest]
      omega

theorem entered_callsList (os : List Outline) (parent : Option Nat) (id : Nat) :
    ((callsList os parent id).filter (·.phase = .enter)).map (·.id) =
      List.range' id (sizeList os) := by
  induction os using forest_induction generalizing parent id with
  | nil => rfl
  | node kind os rest ihos ihrest =>
      have hrange : List.range' id (1 + sizeList os + sizeList rest) =
          id :: (List.range' (id + 1) (sizeList os) ++
            List.range' (id + (1 + sizeList os)) (sizeList rest)) := by
        rw [← Nat.add_assoc, List.range'_append_1, Nat.add_assoc, Nat.add_comm 1,
          List.range'_succ]
      simp [callsList_node_cons, ihos, ihrest, hrange]

theorem id_of_mem_callsList {os : List Outline} {parent : Option Nat} {id : Nat} {c : Callback}
    (hc : c ∈ callsList os parent id) : id ≤ c.id ∧ c.id < id + sizeList os := by
  induction os using forest_induction generalizing parent id with
  | nil => cases hc
  | node kind os rest ihos ihrest =>
      rw [sizeList_node_cons]
      rw [callsList_node_cons, List.mem_cons, List.mem_append, List.mem_cons] at hc
      rcases hc with rfl | hc | rfl | hc
      · dsimp only
        omega
      · have := ihos hc
        omega
      · dsimp only
        omega
      · have := ihrest hc
        omega

theorem nested_callsList (os : List Outline) (parent : Option Nat) (id : Nat) :
    Nested (callsList os parent id) := by
  induction os using forest_induction generalizing parent id with
  | nil => exact .nil
  | node kind os rest ihos ihrest =>
      rw [callsList_node_cons]
      exact .node (ihos ..) (ihrest ..)

theorem parent_ne_none_of_mem_callsList {os : List Outline} {parent id : Nat} {c : Callback}
    (hc : c ∈ callsList os (some parent) id) : c.parent ≠ none := by
  induction os using forest_induction generalizing parent id with
  | nil => cases hc
  | node kind os rest ihos ihrest =>
      rw [callsList_node_cons, List.mem_cons, List.mem_append, List.mem_cons] at hc
      rcases hc with rfl | hc | rfl | hc
      · exact Option.some_ne_none parent
      · exact ihos hc
      · exact Option.some_ne_none parent
      · exact ihrest hc

theorem openAfter_callsList (os : List Outline) (parent : Option Nat) (id : Nat)
    (nodes : List Nat) : openAfter nodes (callsList os parent id) = nodes := by
  induction os using forest_induction generalizing parent id nodes with
  | nil => rfl
  | node kind os rest ihos ihrest =>
      rw [callsList_node_cons, openAfter_enter_cons, openAfter_append, ihos, openAfter_exit_cons,
        List.erase_cons_head, ihrest]

/-- Reading the calls of a forest puts the forest behind what was finished
before, and leaves the open nodes as they are. -/
theorem foldlM_step_callsList (os : List Outline) (parent : Option Nat) (id : Nat)
    (stack : List (Callback × List Outline)) (done : List Outline) :
    (callsList os parent id).foldlM Reader.step ⟨stack, done⟩ = some ⟨stack, done ++ os⟩ := by
  induction os using forest_induction generalizing parent id stack done with
  | nil => simp
  | node kind os rest ihos ihrest =>
      simp [callsList_node_cons, Reader.step, ihos, ihrest]

end Outline

/-! ### Every node is met twice -/

namespace MetTwice

variable {nodes : List Nat} {calls : List Callback} {i : Nat}

theorem append_right {more : List Callback} (h : MetTwice nodes calls i)
    (hmore : ∀ c ∈ more, c.id ≠ i) : MetTwice nodes (calls ++ more) i := by
  obtain ⟨kind, parent, before, inner, after, rfl, hother, hinner, hparent⟩ := h
  refine ⟨kind, parent, before, inner, after ++ more, by simp, ?_, hinner, hparent⟩
  rw [← List.append_assoc]
  exact List.forall_mem_append.mpr ⟨hother, hmore⟩

theorem append_left {earlier : List Callback} (h : MetTwice (openAfter nodes earlier) calls i)
    (hearlier : ∀ c ∈ earlier, c.id ≠ i) : MetTwice nodes (earlier ++ calls) i := by
  obtain ⟨kind, parent, before, inner, after, rfl, hother, hinner, hparent⟩ := h
  refine ⟨kind, parent, earlier ++ before, inner, after, by simp, ?_, hinner, ?_⟩
  · rw [List.append_assoc, List.append_assoc, ← List.append_assoc before]
    exact List.forall_mem_append.mpr ⟨hearlier, hother⟩
  · rw [hparent, openAfter_append]

end MetTwice

namespace Outline

variable {os rest : List Outline} {kind : String} {nodes : List Nat} {id i : Nat}

theorem metTwice_self (kind : String) (os rest : List Outline) (nodes : List Nat) (id : Nat) :
    MetTwice nodes (callsList (node kind os :: rest) nodes.head? id) id := by
  refine ⟨kind, nodes.head?, [], callsList os (some id) (id + 1), _, callsList_node_cons ..,
    ?_, nested_callsList .., rfl⟩
  intro c hc
  rw [List.nil_append, List.mem_append] at hc
  rcases hc with hc | hc
  · have := id_of_mem_callsList hc
    omega
  · have := id_of_mem_callsList hc
    omega

/-- What is met twice below a node is met twice around it, between the entry and
the exit of that node. -/
theorem metTwice_of_children (hi : id < i) (hlt : i < id + (1 + sizeList os))
    (h : MetTwice (id :: nodes) (callsList os (some id) (id + 1)) i) :
    MetTwice nodes (callsList (node kind os :: rest) nodes.head? id) i := by
  have hlater : ∀ c ∈ (⟨.exit, kind, id, nodes.head?⟩ : Callback) ::
      callsList rest nodes.head? (id + (1 + sizeList os)), c.id ≠ i := by
    intro c hc
    rcases List.mem_cons.mp hc with rfl | hc
    · exact Nat.ne_of_lt hi
    · have := id_of_mem_callsList hc
      omega
  have hentry : ∀ c ∈ [(⟨.enter, kind, id, nodes.head?⟩ : Callback)], c.id ≠ i := by
    intro c hc
    rw [List.mem_singleton.mp hc]
    exact Nat.ne_of_lt hi
  rw [callsList_node_cons]
  apply MetTwice.append_left _ hentry
  exact h.append_right hlater

theorem metTwice_of_rest (hle : id + (1 + sizeList os) ≤ i)
    (h : MetTwice nodes (callsList rest nodes.head? (id + (1 + sizeList os))) i) :
    MetTwice nodes (callsList (node kind os :: rest) nodes.head? id) i := by
  rw [callsList_cons]
  apply MetTwice.append_left
  · rwa [openAfter_callsList]
  · intro c hc
    have := (id_of_mem_callsList hc).2
    rw [sizeList_node_cons, sizeList_nil] at this
    omega

theorem metTwice_callsList (hle : id ≤ i) (hlt : i < id + sizeList os) :
    MetTwice nodes (callsList os nodes.head? id) i := by
  induction os using forest_induction generalizing nodes id with
  | nil =>
      rw [sizeList_nil] at hlt
      omega
  | node kind os rest ihos ihrest =>
      rw [sizeList_node_cons] at hlt
      -- The numbers of a forest go to the first node, then to those below it, then to the rest.
      by_cases hself : i = id
      · rw [hself]
        exact metTwice_self ..
      · by_cases hbelow : i < id + (1 + sizeList os)
        · exact metTwice_of_children (by omega) hbelow (ihos (by omega) (by omega))
        · exact metTwice_of_rest (by omega) (ihrest (by omega) (by omega))

end Outline

theorem Outline.bracketed_calls (o : Outline) : Bracketed o (o.calls none 0) where
  length_eq := by rw [← callsList_singleton, length_callsList, sizeList_singleton]
  entered_eq := by
    rw [← callsList_singleton, entered_callsList, sizeList_singleton, List.range_eq_range']
  nested := by
    rw [← callsList_singleton]
    exact nested_callsList ..
  metTwice id hid := by
    have hlt : id < 0 + sizeList [o] := by rwa [Nat.zero_add, sizeList_singleton]
    have h : MetTwice [] (callsList [o] none 0) id := metTwice_callsList (Nat.zero_le id) hlt
    rwa [callsList_singleton] at h
  parent_eq_none_iff c hc := by
    obtain ⟨kind, os⟩ := o
    rw [calls, List.mem_cons, List.mem_append, List.mem_singleton] at hc
    rcases hc with rfl | hc | rfl
    · simp
    · have hid := (id_of_mem_callsList hc).1
      exact iff_of_false (parent_ne_none_of_mem_callsList hc) (by omega)
    · simp
  readBack_eq := by
    rw [← callsList_singleton]
    simp [readBack, foldlM_step_callsList]

theorem Untyped.known_of_kind? {n : Untyped} (h : ∀ m, Reached m n → m.kind? ≠ none) :
    Known n := by
  intro m hm
  obtain ⟨kind, hkind⟩ := Option.ne_none_iff_exists'.mp (h m hm)
  have hrule : Walkable.children m = m.children := rfl
  rw [hrule, Untyped.children, hkind]
  cases kind <;> exact ⟨_, rfl⟩

/-- A walk that is recorded ends well, and its calls are brackets around the
tree: for trees of either vocabulary, and for untyped nodes as long as the walk
leads to known kinds only. -/
theorem recorder_ofTree_bracketed :
    (∀ t : Source, ∃ calls, Recorder.ofTree none t = (.ok (), calls) ∧
      Bracketed (outline t) calls.toList) ∧
    (∀ t : Target, ∃ calls, Recorder.ofTree none t = (.ok (), calls) ∧
      Bracketed (outline t) calls.toList) ∧
    ∀ n : Untyped, (∀ m, Reached m n → m.kind? ≠ none) →
      ∃ calls, Recorder.ofTree none n = (.ok (), calls) ∧
        Bracketed (outline n) calls.toList := by
  refine ⟨fun t => ?_, fun t => ?_, fun n hn => ?_⟩
  · exact ⟨_, recorder_ofTree_of_known (known_of_vocabulary t), bracketed_calls _⟩
  · exact ⟨_, recorder_ofTree_of_known (known_of_vocabulary t), bracketed_calls _⟩
  · exact ⟨_, recorder_ofTree_of_known (Untyped.known_of_kind? hn), bracketed_calls _⟩

/-- A program of which only the fields that are walked hold nodes of a known
kind: a callee is not walked, and arguments are not if there are parameters. -/
def strayFields : Untyped where
  type := "Program"
  body := some [
    { type := "CallExpression", callee := some { type := "Lambda" }, params := some [],
      arguments := some [{ type := "Lambda" }] },
    { type := "NumberLiteral" }]

theorem recorder_ofTree_bracketed_strayFields :
    (∀ m, Reached m strayFields → m.kind? ≠ none) ∧
      ∃ calls, Recorder.ofTree none strayFields = (.ok (), calls) ∧
        Bracketed (outline strayFields) calls.toList := by
  have hknown : ∀ m, Reached m strayFields → m.kind? ≠ none := by
    intro m hm
    cases hm with
    | refl => decide
    | @child n c cs hcs hc h =>
        cases hcs
        change c ∈ strayFields.body.getD [] at hc
        simp only [strayFields, Option.getD_some, List.mem_cons, List.not_mem_nil, or_false] at hc
        rcases hc with rfl | rfl
        · cases h with
          | refl => decide
          | child hcs hc => cases hcs; cases hc
        · cases h with
          | refl => decide
          | child hcs hc => cases hcs; cases hc
  exact ⟨hknown, recorder_ofTree_bracketed.2.2 strayFields hknown⟩

end Polish
