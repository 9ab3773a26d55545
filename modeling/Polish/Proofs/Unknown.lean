import Polish.Proofs.Addresses
import Polish.Untyped.Walk

/-!
Walking an untyped node of which some part has an unknown kind.

The child rule of untyped nodes fails for unknown kinds and for nothing else,
so a log of such a walk ends at the first of them.  What the log holds then is
said by the addresses of the nodes: all nodes up to that one are entered, and
the brackets that stay open are those of the nodes above it.
-/

namespace Polish

open Walk

variable {N : Type}

section Log

variable [Walkable N]

def Addressed.event (phase : Phase) (p : Addressed N × Nat) : WalkEvent :=
  ⟨p.2, Walkable.kindName p.1.node, phase⟩

theorem filter_map_event (calls : List (Visit N)) (phase : Phase) :
    (calls.map fun a => a.callback.event).filter (·.phase = phase) =
      ((calls.filter (·.phase = phase)).map (·.here)).map fun l =>
        ⟨l.id, Walkable.kindName l.node, phase⟩ := by
  rw [List.filter_map, List.map_map]
  refine List.map_congr_left fun a ha => ?_
  have hphase : a.phase = phase := of_decide_eq_true (List.mem_filter.mp ha).2
  rw [← hphase]
  rfl

theorem events_ofTree (root : N) :
    (EventLog.ofTree root).2.events.toList =
      (itinerary root).visits.map fun a => a.callback.event := by
  rw [eventLog_ofTree, recorder_ofTree]
  simp

theorem ending_ofTree (root : N) : (EventLog.ofTree root).1 = (itinerary root).ending := by
  rw [eventLog_ofTree, recorder_ofTree]

namespace Account

variable {calls : List (Visit N)} {next : Nat} {ps : List (Addressed N)}
  {left : Addressed N → Bool}

theorem filter_enter_events (h : Account calls next ps left) :
    (calls.map fun a => a.callback.event).filter (·.phase = .enter) =
      (ps.zipIdx next).map (Addressed.event .enter) := by
  rw [filter_map_event, h.entered, List.map_map]
  rfl

theorem filter_exit_events (h : Account calls next ps left) :
    ((calls.map fun a => a.callback.event).filter (·.phase = .exit)).Perm
      (((ps.zipIdx next).filter fun p => left p.1).map (Addressed.event .exit)) := by
  have hperm := h.left.map fun l : Located N =>
    (⟨l.id, Walkable.kindName l.node, .exit⟩ : WalkEvent)
  rw [List.map_map (l := (ps.zipIdx next).filter _)] at hperm
  rw [filter_map_event]
  exact hperm

/-- A node is left exactly if the account says so. -/
theorem exists_exit_iff (h : Account calls 0 ps left) {p : Addressed N} {id : Nat}
    (hp : ps[id]? = some p) :
    (∃ e ∈ calls.map (fun a => a.callback.event), e.id = id ∧ e.phase = .exit) ↔
      left p = true := by
  have hexit : ∀ e : WalkEvent,
      e ∈ calls.map (fun a => a.callback.event) ∧ e.phase = .exit ↔
        ∃ q, (q ∈ ps.zipIdx ∧ left q.1 = true) ∧ Addressed.event .exit q = e := by
    intro e
    have hmem := h.filter_exit_events.mem_iff (a := e)
    rw [List.mem_filter, decide_eq_true_eq] at hmem
    rw [hmem]
    simp only [List.mem_map, List.mem_filter]
  constructor
  · rintro ⟨e, he, rfl, hphase⟩
    obtain ⟨⟨q, i⟩, ⟨hq, hleft⟩, rfl⟩ := (hexit e).mp ⟨he, hphase⟩
    rw [List.mk_mem_zipIdx_iff_getElem?] at hq
    obtain rfl : q = p := Option.some.inj (hq.symm.trans hp)
    exact hleft
  · intro hleft
    obtain ⟨he, hphase⟩ := (hexit _).mpr
      ⟨(p, id), ⟨List.mk_mem_zipIdx_iff_getElem?.mpr hp, hleft⟩, rfl⟩
    exact ⟨_, he, rfl, hphase⟩

end Account

/-- A log that ends with the entry of `m`, after the nodes `before`. -/
structure EventLog.StoppedAt (log : EventLog) (before : List (Addressed N)) (m : Addressed N) :
    Prop where
  /-- The nodes up to `m` are entered, in order. -/
  entered : log.events.toList.filter (·.phase = .enter) =
    (before ++ [m]).zipIdx.map (Addressed.event .enter)
  /-- Nothing comes after the entry of `m`. -/
  last : log.events.toList.getLast? = some (Addressed.event .enter (m, before.length))
  /-- Each of these nodes that is not on the way to `m` is left once. -/
  left : (log.events.toList.filter (·.phase = .exit)).Perm
    (((before ++ [m]).zipIdx.filter fun p => ¬ p.1.OnWayTo m).map (Addressed.event .exit))
  /-- Those that are not left are the nodes on the way to `m`, with `m` itself. -/
  left_iff : ∀ p id, (before ++ [m])[id]? = some p →
    ((∃ e ∈ log.events.toList, e.id = id ∧ e.phase = .exit) ↔ ¬ p.OnWayTo m)

theorem ofTree_of_failsFirst {root : N} {before : List (Addressed N)} {m : Addressed N}
    {e : WalkError} (h : FailsFirst (preorder root []) before m e) :
    (EventLog.ofTree root).1 = .error e ∧ (EventLog.ofTree root).2.StoppedAt before m := by
  have hstopped := stopped_tour h none 0
  have hevents := events_ofTree root
  rw [itinerary, Itinerary.visits_andThen_of_error hstopped.ending] at hevents
  refine ⟨?_, ?_, ?_, ?_, ?_⟩
  · rw [ending_ofTree, itinerary, Itinerary.ending_andThen_of_error hstopped.ending]
  · rw [hevents, hstopped.account.filter_enter_events]
  · obtain ⟨earlier, parent, hlast⟩ := hstopped.last
    rw [hevents, hlast, List.map_append, List.map_singleton, List.getLast?_concat, Nat.zero_add]
    rfl
  · rw [hevents]
    exact hstopped.account.filter_exit_events
  · intro p id hp
    rw [hevents, hstopped.account.exists_exit_iff hp, decide_eq_true_eq]

theorem ending_ofTree_eq_ok_iff {root : N} : (EventLog.ofTree root).1 = .ok () ↔ Known root := by
  constructor
  · intro hok
    rcases FailsFirst.forall_ok_or_exists (preorder root []) with hknown | ⟨before, m, e, h⟩
    · exact known_iff.mpr hknown
    · rw [(ofTree_of_failsFirst h).1] at hok
      cases hok
  · intro hknown
    rw [eventLog_ofTree, recorder_ofTree_of_known hknown]

end Log

namespace Untyped

def IsUnknown (n : Untyped) : Prop :=
  ∀ k : Kind, n.type ≠ k.name

theorem isUnknown_iff {n : Untyped} : n.IsUnknown ↔ n.kind? = none := by
  constructor
  · intro h
    cases hkind : n.kind? with
    | none => rfl
    | some k => exact absurd (Kind.name_of_ofName? hkind).symm (h k)
  · intro hnone k hk
    rw [kind?, hk, Kind.ofName?_name] at hnone
    cases hnone

theorem walkable_children (n : Untyped) : Walkable.children n = n.children := rfl

theorem children_of_isUnknown {n : Untyped} (h : n.IsUnknown) :
    Walkable.children n = .error (.unknownKind n.type) := by
  rw [walkable_children, children, isUnknown_iff.mp h]

theorem exists_children_iff {n : Untyped} :
    (∃ cs, Walkable.children n = .ok cs) ↔ ¬ n.IsUnknown := by
  constructor
  · rintro ⟨cs, hcs⟩ hunknown
    rw [children_of_isUnknown hunknown] at hcs
    cases hcs
  · intro h
    rw [isUnknown_iff] at h
    obtain ⟨k, hk⟩ := Option.ne_none_iff_exists'.mp h
    rw [walkable_children, children, hk]
    cases k <;> exact ⟨_, rfl⟩

end Untyped

open Untyped

/-- In the order in which nodes are entered, `m` is the first node of an unknown
kind, and `before` are the nodes before it. -/
structure FirstUnknown (n : Untyped) (before : List (Addressed Untyped)) (m : Addressed Untyped) :
    Prop where
  eq_append : ∃ after, preorder n [] = before ++ m :: after
  before_known : ∀ p ∈ before, ¬ p.node.IsUnknown
  unknown : m.node.IsUnknown

theorem FirstUnknown.failsFirst {n : Untyped} {before : List (Addressed Untyped)}
    {m : Addressed Untyped} (h : FirstUnknown n before m) :
    FailsFirst (preorder n []) before m (.unknownKind m.node.type) where
  eq_append := h.eq_append
  before_ok p hp := exists_children_iff.mpr (h.before_known p hp)
  error := children_of_isUnknown h.unknown

theorem firstUnknown_of_failsFirst {n : Untyped} {before : List (Addressed Untyped)}
    {m : Addressed Untyped} {e : WalkError} (h : FailsFirst (preorder n []) before m e) :
    FirstUnknown n before m where
  eq_append := h.eq_append
  before_known p hp := exists_children_iff.mp (h.before_ok p hp)
  unknown := by
    by_contra hknown
    obtain ⟨cs, hcs⟩ := exists_children_iff.mpr hknown
    have herror := h.error
    rw [hcs] at herror
    cases herror

/-- A log of a walk over untyped nodes ends with an error exactly if the child
rule leads to an unknown kind, and the error names the first one.  The log then
ends with the entry of that node, and has both events of every node before it
except for those above it. -/
theorem eventLog_stops_at_first_unknown (n : Untyped) :
    (∀ k, (EventLog.ofTree n).1 = .error (.unknownKind k) ↔
      ∃ before m, FirstUnknown n before m ∧ m.node.type = k) ∧
    ((EventLog.ofTree n).1 = .ok () ↔ ¬ ∃ m, Reached m n ∧ m.IsUnknown) ∧
    ∀ before m, FirstUnknown n before m → (EventLog.ofTree n).2.StoppedAt before m := by
  refine ⟨?_, ?_, ?_⟩
  · intro k
    constructor
    · intro herror
      rcases FailsFirst.forall_ok_or_exists (preorder n []) with hknown | ⟨before, m, e, h⟩
      · rw [ending_ofTree_eq_ok_iff.mpr (known_iff.mpr hknown)] at herror
        cases herror
      · have hfirst := firstUnknown_of_failsFirst h
        rw [(ofTree_of_failsFirst hfirst.failsFirst).1] at herror
        exact ⟨before, m, hfirst, by simpa using herror⟩
    · rintro ⟨before, m, hfirst, rfl⟩
      exact (ofTree_of_failsFirst hfirst.failsFirst).1
  · rw [ending_ofTree_eq_ok_iff, Known]
    simp only [exists_children_iff, not_exists, not_and]
  · intro before m hfirst
    exact (ofTree_of_failsFirst hfirst.failsFirst).2

/-- An unknown kind among the arguments of a call that has no parameters; the one
in the place of the callee is not walked. -/
def unknownArgument : Untyped where
  type := "CallExpression"
  callee := some { type := "Macro" }
  arguments := some [{ type := "NumberLiteral" }, { type := "Lambda" }, { type := "Label" }]

theorem eventLog_stops_at_first_unknown_argument :
    FirstUnknown unknownArgument [⟨unknownArgument, []⟩, ⟨{ type := "NumberLiteral" }, [0]⟩]
        ⟨{ type := "Lambda" }, [1]⟩ ∧
      (EventLog.ofTree unknownArgument).1 = .error (.unknownKind "Lambda") ∧
      (EventLog.ofTree unknownArgument).2.StoppedAt
        [⟨unknownArgument, []⟩, ⟨{ type := "NumberLiteral" }, [0]⟩]
        ⟨{ type := "Lambda" }, [1]⟩ := by
  have hunknown (name : String) (h : Kind.ofName? name = none) : IsUnknown { type := name } :=
    isUnknown_iff.mpr h
  have hfirst : FirstUnknown unknownArgument
      [⟨unknownArgument, []⟩, ⟨{ type := "NumberLiteral" }, [0]⟩] ⟨{ type := "Lambda" }, [1]⟩ := by
    refine ⟨⟨[⟨{ type := "Label" }, [2]⟩], ?_⟩, ?_, hunknown _ rfl⟩
    · have hcall : Walkable.children unknownArgument = .ok
          [{ type := "NumberLiteral" }, { type := "Lambda" }, { type := "Label" }] := rfl
      have hnumber : Walkable.children ({ type := "NumberLiteral" } : Untyped) = .ok [] := rfl
      rw [preorder_of_ok hcall, preorderAll_cons, preorderAll_cons, preorderAll_cons,
        preorder_of_ok hnumber, preorder_of_error (children_of_isUnknown (hunknown "Lambda" rfl)),
        preorder_of_error (children_of_isUnknown (hunknown "Label" rfl)), preorderAll_nil,
        preorderAll_nil]
      rfl
    · simp only [List.forall_mem_cons, isUnknown_iff]
      exact ⟨by decide, by decide, by simp⟩
  obtain ⟨herror, -, hstopped⟩ := eventLog_stops_at_first_unknown unknownArgument
  exact ⟨hfirst, (herror "Lambda").mpr ⟨_, _, hfirst, rfl⟩, hstopped _ _ hfirst⟩

end Polish
