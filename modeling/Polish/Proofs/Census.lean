import Polish.Proofs.Bracketing
import Polish.Proofs.Forest

/-!
How many nodes of a kind a tree has.  Counting goes through a stack of trees, and
the children of a tree are put on it last one first.  The order does not matter
for a count, and the count depends on the outline of the tree only.

`CountsIn` follows the loop turn by turn.  Every turn takes one node off the
stack, so the loop has as many turns as the stack has nodes; what a turn keeps,
the nodes counted and the nodes to come, gives the result.  A walk goes through
the nodes in another order, and enters each of them once.
-/

namespace Polish

open Walk

theorem Kind.name_inj {k l : Kind} : k.name = l.name ↔ k = l := by
  refine ⟨fun h => ?_, congrArg Kind.name⟩
  have hfound := Kind.ofName?_name k
  rw [h, Kind.ofName?_name] at hfound
  exact (Option.some.inj hfound).symm

namespace Outline

mutual

def occurrences (name : String) : Outline → Nat
  | node kind os => (if kind = name then 1 else 0) + occurrencesList name os

def occurrencesList (name : String) : List Outline → Nat
  | [] => 0
  | o :: os => o.occurrences name + occurrencesList name os

end

theorem occurrencesList_eq_total (name : String) (os : List Outline) :
    occurrencesList name os = total (occurrences name) os := by
  induction os with
  | nil => rfl
  | cons o os ih => rw [occurrencesList, ih, total_cons]

theorem sizeList_eq_total (os : List Outline) : sizeList os = total size os := by
  induction os with
  | nil => rfl
  | cons o os ih => rw [sizeList, ih, total_cons]

end Outline

namespace Vocabulary

variable {V : Type} [Vocabulary V]

theorem outline_eq (t : V) : outline t = .node (kind t).name ((children t).map outline) :=
  outline_of_ok rfl

theorem occurrences_outline (name : String) (t : V) :
    (outline t).occurrences name =
      (if (kind t).name = name then 1 else 0) +
        total (fun c => (outline c).occurrences name) (children t) := by
  rw [outline_eq, Outline.occurrences, Outline.occurrencesList_eq_total, total_map]

/-- With `pending` on the stack and `counted` nodes counted, the loop that counts
the nodes of a kind stops after a number of turns and comes to `result`. -/
inductive CountsIn (k : Kind) : Nat → List V → Nat → Nat → Prop
  | done {counted : Nat} : CountsIn k 0 [] counted counted
  | turn {turns counted result : Nat} {t : V} {rest : List V}
      (h : CountsIn k turns ((children t).reverse ++ rest)
        (if kind t = k then counted + 1 else counted) result) :
      CountsIn k (turns + 1) (t :: rest) counted result

/-- The loop takes one turn for each node of the trees on the stack. -/
theorem countsIn_countPending (k : Kind) (pending : List V) (counted : Nat) :
    CountsIn k (total size pending) pending counted (countPending k pending counted) := by
  -- The children come in place of their parent, so the trees on the stack have fewer nodes.
  induction hsize : total size pending using Nat.strongRecOn generalizing pending counted with
  | ind n ih =>
      cases pending with
      | nil =>
          rw [countPending, ← hsize]
          exact .done
      | cons t rest =>
          have hturns : n = total size ((children t).reverse ++ rest) + 1 := by
            rw [← hsize, total_append, total_reverse, total_cons, size_eq t]
            omega
          rw [countPending, hturns]
          exact .turn (ih _ (by omega) _ _ rfl)

/-- A turn moves a node from the stack into the count and keeps the sum of both. -/
theorem CountsIn.result_eq {k : Kind} {turns counted result : Nat} {pending : List V}
    (h : CountsIn k turns pending counted result) :
    result = counted + total (fun t => (outline t).occurrences k.name) pending := by
  induction h with
  | done => rfl
  | turn _ ih =>
      rw [ih, total_append, total_reverse, total_cons, occurrences_outline]
      simp only [Kind.name_inj]
      split <;> omega

theorem countPending_eq (k : Kind) (pending : List V) (counted : Nat) :
    countPending k pending counted =
      counted + total (fun t => (outline t).occurrences k.name) pending :=
  (countsIn_countPending k pending counted).result_eq

theorem count_eq_occurrences (k : Kind) (t : V) :
    count k t = (outline t).occurrences k.name := by
  rw [count, countPending_eq, total_cons, total_nil, Nat.zero_add, Nat.add_zero]

/-- A number that each node adds something of its own to is told by what the
nodes add. -/
theorem eq_of_node_eq {f g own : V → Nat} (hf : ∀ t, f t = own t + total f (children t))
    (hg : ∀ t, g t = own t + total g (children t)) (t : V) : f t = g t := by
  have hforest : ∀ ts : List V, total f ts = total g ts := by
    intro ts
    induction ts using Walkable.forest_induction with
    | nil => rfl
    | cons t rest iht ihrest =>
        have hchildren := iht (children t) rfl
        rw [total_cons, total_cons, hf, hg, hchildren, ihrest]
  rw [hf, hg, hforest]

theorem length_nodes (t : V) : (nodes t).length = size t := by
  have hnode : ∀ t : V, (nodes t).length = 1 + total (fun c => (nodes c).length) (children t) := by
    intro t
    simp only [← List.countP_true]
    rw [nodes_eq, List.countP_cons, countP_flatMap_eq_total, if_pos rfl, Nat.add_comm]
  exact eq_of_node_eq hnode size_eq t

theorem size_outline (t : V) : (outline t).size = size t := by
  have hnode : ∀ t : V, (outline t).size = 1 + total (fun c => (outline c).size) (children t) := by
    intro t
    rw [outline_eq, Outline.size, Outline.sizeList_eq_total, total_map]
  exact eq_of_node_eq hnode size_eq t

theorem count_eq_countP_nodes (k : Kind) (t : V) : count k t = (nodes t).countP (kind · = k) := by
  have hnode : ∀ t : V, (nodes t).countP (kind · = k) =
      (if (kind t).name = k.name then 1 else 0) +
        total (fun c => (nodes c).countP (kind · = k)) (children t) := by
    intro t
    rw [nodes_eq, List.countP_cons, countP_flatMap_eq_total, Nat.add_comm]
    simp only [Kind.name_inj, decide_eq_true_eq]
  rw [count_eq_occurrences]
  exact eq_of_node_eq (occurrences_outline k.name) hnode t

theorem total_countP_kind (ns : List V) :
    total (fun k => ns.countP (kind · = k)) Kind.all = ns.length := by
  induction ns with
  | nil => rfl
  | cons n ns ih =>
      have hone : total (fun k => if kind n = k then 1 else 0) Kind.all = 1 := by
        cases kind n <;> rfl
      simp only [List.countP_cons, decide_eq_true_eq, total_add, ih, hone, List.length_cons]

end Vocabulary

theorem Outline.countP_entered_callsList (name : String) (os : List Outline) (parent : Option Nat)
    (id : Nat) :
    (callsList os parent id).countP (fun c => c.phase = .enter ∧ c.kind = name) =
      occurrencesList name os := by
  induction os using forest_induction generalizing parent id with
  | nil => rfl
  | node kind os rest ihos ihrest =>
      rw [callsList_node_cons, List.countP_cons, List.countP_append, List.countP_cons, ihos, ihrest,
        occurrencesList, occurrences]
      simp only [reduceCtorEq, false_and, true_and, decide_false, decide_eq_true_eq,
        Bool.false_eq_true, if_false, Nat.add_zero]
      omega

namespace EventLog

def countEntered (log : EventLog) (kind : String) : Nat :=
  log.events.toList.countP fun e => e.phase = .enter ∧ e.kind = kind

variable {V : Type} [Vocabulary V]

theorem countEntered_ofTree (name : String) (t : V) :
    (ofTree t).2.countEntered name = (outline t).occurrences name := by
  have h := Outline.countP_entered_callsList name [outline t] none 0
  rw [Outline.callsList_singleton] at h
  rw [countEntered, events_of_vocabulary, List.countP_map]
  exact h

/-- The last number given away is one less than the number of nodes. -/
theorem maxId?_ofTree (t : V) : (ofTree t).2.maxId? = some (Vocabulary.size t - 1) := by
  have hpos : 0 < Vocabulary.size t := Walkable.size_pos t
  have hbracketed := (outline t).bracketed_calls
  rw [maxId?, events_of_vocabulary, List.map_map, List.max?_eq_some_iff]
  constructor
  · -- Numbers are given at entry, and the last of them is the largest.
    have hlast : Vocabulary.size t - 1 ∈
        (((outline t).calls none 0).filter (·.phase = .enter)).map (·.id) := by
      rw [hbracketed.entered_eq, Vocabulary.size_outline, List.mem_range]
      omega
    obtain ⟨c, hc, hid⟩ := List.mem_map.mp hlast
    exact List.mem_map.mpr ⟨c, (List.mem_filter.mp hc).1, hid⟩
  · intro id hid
    obtain ⟨c, hc, rfl⟩ := List.mem_map.mp hid
    rw [← Outline.callsList_singleton] at hc
    have hlt := (Outline.id_of_mem_callsList hc).2
    rw [Outline.sizeList_singleton, Vocabulary.size_outline] at hlt
    change c.id ≤ Vocabulary.size t - 1
    omega

end EventLog

/-- What counting finds in a tree is what a walk of the tree enters. -/
structure Censused {V : Type} [Vocabulary V] (t : V) : Prop where
  stops : ∀ k, Vocabulary.CountsIn k (Vocabulary.nodes t).length [t] 0 (Vocabulary.count k t)
  /-- The walk ends well and enters as many nodes of a kind as are counted. -/
  accepted : (EventLog.ofTree t).1 = .ok ()
  count_eq : ∀ k, Vocabulary.count k t = (EventLog.ofTree t).2.countEntered k.name
  total_eq : total (fun k => Vocabulary.count k t) Kind.all = (Vocabulary.nodes t).length
  /-- The numbers that the walk gives away go up to one less than that. -/
  maxId_eq : ∃ last, (EventLog.ofTree t).2.maxId? = some last ∧
    total (fun k => Vocabulary.count k t) Kind.all = last + 1

theorem censused_of_vocabulary {V : Type} [Vocabulary V] (t : V) : Censused t := by
  have htotal : total (fun k => Vocabulary.count k t) Kind.all = (Vocabulary.nodes t).length := by
    simp only [Vocabulary.count_eq_countP_nodes, Vocabulary.total_countP_kind]
  have hturns : total Vocabulary.size [t] = (Vocabulary.nodes t).length := by
    rw [Vocabulary.length_nodes, total_cons, total_nil, Nat.add_zero]
  refine ⟨?_, ?_, ?_, htotal, Vocabulary.size t - 1, EventLog.maxId?_ofTree t, ?_⟩
  · intro k
    rw [← hturns]
    exact Vocabulary.countsIn_countPending k [t] 0
  · rw [eventLog_of_vocabulary]
  · intro k
    rw [EventLog.countEntered_ofTree, Vocabulary.count_eq_occurrences]
  · have hpos : 0 < Vocabulary.size t := Walkable.size_pos t
    rw [htotal, Vocabulary.length_nodes]
    omega

/-- Counting agrees with walking, for trees of either vocabulary. -/
theorem count_eq_entered_of_walk :
    (∀ t : Source, Censused t) ∧ ∀ t : Target, Censused t :=
  ⟨censused_of_vocabulary, censused_of_vocabulary⟩

end Polish
