import Polish.Proofs.Itinerary
import Polish.Walk.Recorder

/-!
Outlines: trees of which only the names of the kinds are left.

The child rule of a tree gives it an outline, whatever the tree is made of, and
a recorder sees no more of a tree than that.  `calls` says which calls a
recorder gets for an outline, by recursion on the outline.  Where the child
rule fails nowhere, walking a tree is reading these calls off its outline
(`recorder_ofTree_of_known`); two trees with one outline cannot be told apart
by their events.

Statements about outlines are made for forests, with the parent and the first
number free, so that the nodes below a node and the nodes after it are treated
alike.
-/

namespace Polish

variable {N : Type}

inductive Outline
  | node (kind : String) (children : List Outline)
  deriving Repr

namespace Outline

@[elab_as_elim] theorem forest_induction {motive : List Outline → Prop} (nil : motive [])
    (node : ∀ kind os rest, motive os → motive rest → motive (.node kind os :: rest))
    (forest : List Outline) : motive forest :=
  match forest with
  | [] => nil
  | .node kind os :: rest =>
      node kind os rest (forest_induction nil node os) (forest_induction nil node rest)
termination_by sizeOf forest

mutual

def size : Outline → Nat
  | node _ os => 1 + sizeList os

def sizeList : List Outline → Nat
  | [] => 0
  | o :: os => o.size + sizeList os

end

mutual

/-- The calls for a node with the number `id` and for the nodes below it. -/
def calls : Outline → Option Nat → Nat → List Callback
  | node kind os, parent, id =>
    ⟨.enter, kind, id, parent⟩ :: (callsList os (some id) (id + 1) ++ [⟨.exit, kind, id, parent⟩])

def callsList : List Outline → Option Nat → Nat → List Callback
  | [], _, _ => []
  | o :: os, parent, id => o.calls parent id ++ callsList os parent (id + o.size)

end

@[simp] theorem sizeList_nil : sizeList [] = 0 := rfl

@[simp] theorem sizeList_node_cons (kind : String) (os rest : List Outline) :
    sizeList (node kind os :: rest) = 1 + sizeList os + sizeList rest := rfl

theorem sizeList_singleton (o : Outline) : sizeList [o] = o.size := rfl

@[simp] theorem callsList_nil (parent : Option Nat) (id : Nat) : callsList [] parent id = [] := rfl

theorem callsList_node_cons (kind : String) (os rest : List Outline) (parent : Option Nat)
    (id : Nat) :
    callsList (node kind os :: rest) parent id =
      ⟨.enter, kind, id, parent⟩ :: (callsList os (some id) (id + 1) ++
        ⟨.exit, kind, id, parent⟩ :: callsList rest parent (id + (1 + sizeList os))) := by
  simp [callsList, calls, size]

theorem callsList_singleton (o : Outline) (parent : Option Nat) (id : Nat) :
    callsList [o] parent id = o.calls parent id := by
  simp [callsList]

theorem callsList_cons (o : Outline) (os : List Outline) (parent : Option Nat) (id : Nat) :
    callsList (o :: os) parent id = callsList [o] parent id ++ callsList os parent (id + o.size) := by
  rw [callsList_singleton]
  rfl

/-- Below a node parents have numbers from that of the node on, and every node a
larger number than its parent. -/
theorem parent_of_mem_callsList {os : List Outline} {p id : Nat} {c : Callback}
    (hc : c ∈ callsList os (some p) id) (hlt : p < id) :
    ∃ q, c.parent = some q ∧ p ≤ q ∧ q < c.id := by
  induction os using forest_induction generalizing p id with
  | nil => cases hc
  | node kind os rest ihos ihrest =>
      rw [callsList_node_cons, List.mem_cons, List.mem_append, List.mem_cons] at hc
      rcases hc with rfl | hc | rfl | hc
      · exact ⟨p, rfl, Nat.le_refl p, hlt⟩
      · obtain ⟨q, hq, hle, hqlt⟩ := ihos hc (Nat.lt_succ_self id)
        exact ⟨q, hq, Nat.le_of_lt (Nat.lt_of_lt_of_le hlt hle), hqlt⟩
      · exact ⟨p, rfl, Nat.le_refl p, hlt⟩
      · exact ihrest hc (Nat.lt_add_right _ hlt)

end Outline

open Outline Itinerary

namespace Walk

variable [Walkable N]

mutual

/-- The names of the kinds of a node and of all nodes that the child rule leads
to from it. -/
def outline (n : N) : Outline :=
  match _h : Walkable.children n with
  | .error _ => .node (Walkable.kindName n) []
  | .ok cs => .node (Walkable.kindName n) (outlineAll cs)
termination_by 2 * Walkable.size n
decreasing_by
  have := Walkable.size_children _h
  omega

def outlineAll (ns : List N) : List Outline :=
  match ns with
  | [] => []
  | n :: rest => outline n :: outlineAll rest
termination_by 2 * total Walkable.size ns + 1
decreasing_by
  · rw [total_cons]
    omega
  · have := Walkable.size_pos n
    rw [total_cons]
    omega

end

theorem outlineAll_eq_map (ns : List N) : outlineAll ns = ns.map outline := by
  induction ns with
  | nil => rw [outlineAll, List.map_nil]
  | cons n ns ih => rw [outlineAll, ih, List.map_cons]

theorem outline_of_ok {n : N} {cs : List N} (h : Walkable.children n = .ok cs) :
    outline n = .node (Walkable.kindName n) (cs.map outline) := by
  rw [outline]
  split <;> simp_all [outlineAll_eq_map]

/-- The node `m` is `n` itself or one that the child rule leads to from it. -/
inductive Reached (m : N) : N → Prop
  | refl : Reached m m
  | child {n c : N} {cs : List N} (hcs : Walkable.children n = .ok cs) (hc : c ∈ cs)
      (h : Reached m c) : Reached m n

/-- Every node that the child rule leads to has children by that rule. -/
def Known (n : N) : Prop :=
  ∀ m, Reached m n → ∃ cs, Walkable.children m = .ok cs

theorem Known.of_mem_children {n c : N} {cs : List N} (h : Known n)
    (hcs : Walkable.children n = .ok cs) (hc : c ∈ cs) : Known c :=
  fun m hm => h m (.child hcs hc hm)

theorem known_of_vocabulary {V : Type} [Vocabulary V] (t : V) : Known t :=
  fun m _ => ⟨Vocabulary.children m, rfl⟩

end Walk

open Walk

/-! ### What a recorder sees -/

def Visit.callback [Walkable N] (a : Visit N) : Callback :=
  ⟨a.phase, Walkable.kindName a.here.node, a.here.id, a.parent.map (·.id)⟩

/-- The calls of an itinerary are those of an outline, and it ends well. -/
structure Itinerary.Traces [Walkable N] (i : Itinerary N Nat) (os : List Outline) (parent : Option Nat)
    (next : Nat) : Prop where
  visits : i.visits.map Visit.callback = callsList os parent next
  ending : i.ending = .ok (next + sizeList os)

namespace Walk

variable [Walkable N]

theorem traces_tour_of_children {n : N} {cs : List N} (hcs : Walkable.children n = .ok cs)
    (parent : Option (Located N)) (next : Nat)
    (hchildren : (tourAll cs ⟨n, next⟩ (next + 1)).Traces (cs.map outline) (some next) (next + 1)) :
    (tour n parent next).Traces [outline n] (parent.map (·.id)) next := by
  rw [tour_of_ok hcs, outline_of_ok hcs]
  constructor
  · simp [Itinerary.visits, visits_andThen hchildren.ending, hchildren.visits, calls,
      callsList_singleton, Visit.callback]
  · simp only [Itinerary.ending, ending_andThen hchildren.ending, sizeList_node_cons,
      sizeList_nil, Except.ok.injEq]
    omega

theorem traces_tourAll (ns : List N) (hns : ∀ n ∈ ns, Known n) (parent : Located N)
    (next : Nat) : (tourAll ns parent next).Traces (ns.map outline) (some parent.id) next := by
  induction ns using Walkable.forest_induction generalizing parent next with
  | nil =>
      rw [tourAll_nil]
      exact ⟨rfl, rfl⟩
  | cons n rest ihn ihrest =>
      rw [List.forall_mem_cons] at hns
      obtain ⟨cs, hcs⟩ := hns.1 n .refl
      have hn := traces_tour_of_children hcs (some parent) next
        (ihn cs hcs (fun c hc => hns.1.of_mem_children hcs hc) ⟨n, next⟩ (next + 1))
      have hrest := ihrest hns.2 parent (next + (outline n).size)
      have hend : (tour n (some parent) next).ending = .ok (next + (outline n).size) := hn.ending
      rw [tourAll_cons]
      constructor
      · rw [visits_andThen hend, List.map_append, hn.visits, hrest.visits, List.map_cons,
          callsList_cons _ (rest.map outline), Option.map_some]
      · rw [ending_andThen hend, hrest.ending, List.map_cons, sizeList, Nat.add_assoc]

theorem traces_tour {n : N} (hn : Known n) (parent : Option (Located N)) (next : Nat) :
    (tour n parent next).Traces [outline n] (parent.map (·.id)) next := by
  obtain ⟨cs, hcs⟩ := hn n .refl
  exact traces_tour_of_children hcs parent next
    (traces_tourAll cs (fun c hc => hn.of_mem_children hcs hc) ⟨n, next⟩ (next + 1))

end Walk

theorem recorder_ofTree [Walkable N] (root : N) :
    Recorder.ofTree none root =
      ((itinerary root).ending, ((itinerary root).visits.map Visit.callback).toArray) := by
  have hact : ∀ (a : Visit N) s,
      Fallible.outcome ((Recorder.visitor none).act a) s = (.ok (), s.push a.callback) := by
    rintro ⟨_ | _, here, parent⟩ s <;> rfl
  rw [Recorder.ofTree, walk_eq_follow, follow_of_accepted hact, List.foldl_push_eq_append]
  simp

theorem recorder_ofTree_of_known [Walkable N] {root : N} (h : Known root) :
    Recorder.ofTree none root = (.ok (), ((outline root).calls none 0).toArray) := by
  have htraces := traces_tour h none 0
  rw [recorder_ofTree, itinerary, ending_andThen htraces.ending, visits_andThen htraces.ending,
    ← callsList_singleton, List.map_append, htraces.visits]
  simp [Itinerary.visits, Itinerary.ending]

def Callback.event (c : Callback) : WalkEvent :=
  ⟨c.id, c.kind, c.phase⟩

/-- An event log keeps what a recorder notes, without the parents. -/
theorem eventLog_ofTree [Walkable N] (root : N) :
    EventLog.ofTree root =
      ((Recorder.ofTree none root).1, ⟨(Recorder.ofTree none root).2.map Callback.event⟩) := by
  have hact : ∀ (a : Visit N) log,
      Fallible.outcome (EventLog.visitor.act a) log = (.ok (), log.record a.callback.event) := by
    rintro ⟨_ | _, here, parent⟩ log <;> rfl
  have hfold : ∀ (calls : List (Visit N)) (log : EventLog),
      calls.foldl (fun log a => log.record a.callback.event) log =
        ⟨log.events ++ (calls.map fun a => a.callback.event).toArray⟩ := by
    intro calls
    induction calls with
    | nil => simp
    | cons a calls ih =>
        intro log
        rw [List.foldl_cons, ih]
        simp [EventLog.record]
  rw [EventLog.ofTree, walk_eq_follow, follow_of_accepted hact, hfold, recorder_ofTree]
  simp [EventLog.empty, Function.comp_def]

theorem eventLog_of_vocabulary {V : Type} [Vocabulary V] (t : V) :
    EventLog.ofTree t = (.ok (), ⟨(((outline t).calls none 0).map Callback.event).toArray⟩) := by
  rw [eventLog_ofTree, recorder_ofTree_of_known (known_of_vocabulary t)]
  simp

theorem events_of_vocabulary {V : Type} [Vocabulary V] (t : V) :
    (EventLog.ofTree t).2.events.toList = ((outline t).calls none 0).map Callback.event := by
  rw [eventLog_of_vocabulary]

end Polish
