import Polish.Proofs.Assembly
import Polish.Proofs.Lowering
import Polish.Proofs.Outline

/-!
What holds of the table of slots at every moment of a lowering.

`Effect` says once what an accepted call to the lowering visitor does to the
table, and `Slots.Sound` what is kept by all of them: how the bindings, the
slots and the entries go with the nodes entered so far.  A step lemma for each
effect gives the run lemma `Sound.run`.

The walk itself contributes one fact only, that the number of a node is larger
than the number of its parent.  Without it a call could be put into the slot
that was just reserved for it.
-/

namespace Polish

open Fallible Walk

/-- The root has the number zero, every other node a larger number than its
parent. -/
def Visit.Numbered {N : Type} (a : Visit N) : Prop :=
  match a.parent with
  | none => a.here.id = 0
  | some p => p.id < a.here.id

namespace Outline

theorem parent_of_mem_calls {o : Outline} {c : Callback} (hc : c ∈ o.calls none 0) :
    c.parent = none ∧ c.id = 0 ∨ ∃ q, c.parent = some q ∧ q < c.id := by
  obtain ⟨kind, os⟩ := o
  rw [Outline.calls, List.mem_cons, List.mem_append, List.mem_singleton] at hc
  rcases hc with rfl | hc | rfl
  · exact .inl ⟨rfl, rfl⟩
  · obtain ⟨q, hq, -, hlt⟩ := parent_of_mem_callsList hc Nat.one_pos
    exact .inr ⟨q, hq, hlt⟩
  · exact .inl ⟨rfl, rfl⟩

end Outline

theorem numbered_of_mem_itinerary {V : Type} [Vocabulary V] {root : V} {a : Visit V}
    (ha : a ∈ (itinerary root).visits) : a.Numbered := by
  have htraces : (tour root none 0).Traces [outline root] none 0 :=
    traces_tour (known_of_vocabulary root) none 0
  have hmem : a.callback ∈ (outline root).calls none 0 := by
    rw [itinerary, Itinerary.visits_andThen htraces.ending] at ha
    rw [← Outline.callsList_singleton, ← htraces.visits]
    exact List.mem_map_of_mem (by simpa [Itinerary.visits] using ha)
  obtain ⟨phase, here, parent⟩ := a
  rcases Outline.parent_of_mem_calls hmem with ⟨hnone, hzero⟩ | ⟨q, hq, hlt⟩
  · obtain rfl : parent = none := Option.map_eq_none_iff.mp hnone
    exact hzero
  · obtain ⟨p, rfl, rfl⟩ := Option.map_eq_some_iff.mp hq
    exact hlt

namespace Slots

variable {table : Slots}

theorem size_append (table : Slots) (slot : Fin table.slots.size) {entry : Entry}
    (h : entry.InRange table.slots.size) :
    (table.append slot entry h).slots.size = table.slots.size := by
  simp [append]

theorem size_reserve (table : Slots) (id : Nat) :
    (table.reserve id).slots.size = table.slots.size + 1 := by
  simp [reserve]

theorem entries_append (table : Slots) (slot : Fin table.slots.size) {entry : Entry}
    (h : entry.InRange table.slots.size) :
    (entries (table.append slot entry h).slots).Perm (entry :: entries table.slots) :=
  perm_entries_modify slot.isLt entry

theorem entries_reserve (table : Slots) (id : Nat) :
    entries (table.reserve id).slots = entries table.slots :=
  entries_push_empty table.slots

theorem pending_append (table : Slots) (slot : Fin table.slots.size) {entry : Entry}
    (h : entry.InRange table.slots.size) :
    pending (table.append slot entry h).slots = pending table.slots + 1 :=
  (entries_append table slot h).length_eq

theorem pending_reserve (table : Slots) (id : Nat) :
    pending (table.reserve id).slots = pending table.slots :=
  congrArg List.length (entries_reserve table id)

theorem row_append (table : Slots) (slot : Fin table.slots.size) {entry : Entry}
    (h : entry.InRange table.slots.size) (i : Nat) :
    row (table.append slot entry h).slots i =
      if i = slot then row table.slots i ++ [entry] else row table.slots i := by
  simp only [row, append, Array.getElem?_modify]
  split
  · rename_i hi
    subst hi
    simp
  · rename_i hi
    rw [if_neg (Ne.symm hi)]

theorem mem_row_append {slot : Fin table.slots.size} {new entry : Entry}
    {h : new.InRange table.slots.size} {i : Nat}
    (hin : entry ∈ row (table.append slot new h).slots i) :
    entry ∈ row table.slots i ∨ i = slot ∧ entry = new := by
  rw [row_append] at hin
  split at hin
  · next hi =>
    rcases List.mem_append.mp hin with hold | hnew
    · exact .inl hold
    · exact .inr ⟨hi, List.mem_singleton.mp hnew⟩
  · exact .inl hin

theorem row_reserve (table : Slots) (id i : Nat) :
    row (table.reserve id).slots i = row table.slots i := by
  simp only [row, reserve, Array.getElem?_push]
  split
  · rename_i hi
    simp [hi]
  · rfl

theorem getElem?_bindings_reserve (table : Slots) (id i : Nat) :
    (table.reserve id).bindings[i]? =
      if id = i then some table.slots.size else table.bindings[i]? := by
  simp [reserve, Std.TreeMap.getElem?_insert]

theorem Linked.append_node (h : Linked table.slots) (slot : Fin table.slots.size)
    {tree : Target} (hentry : (Entry.node tree).InRange table.slots.size) :
    Linked (table.append slot (.node tree) hentry).slots := by
  have hrefs : (references (table.append slot (.node tree) hentry).slots).Perm
      (references table.slots) :=
    (entries_append table slot hentry).filterMap Entry.slot?
  constructor
  · rw [size_append]
    exact h.size_pos
  · rw [hrefs.mem_iff]
    exact h.zero_notMem
  · intro j hpos hlt
    rw [size_append] at hlt
    rw [hrefs.count_eq]
    exact h.count_eq_one j hpos hlt
  · intro j hj
    rw [size_append]
    exact h.lt_size j (hrefs.mem_iff.mp hj)
  · intro i entry j hin hj
    rcases mem_row_append hin with hold | ⟨-, rfl⟩
    · exact h.lt_slot i entry j hold hj
    · cases hj

theorem Linked.append_call (h : Linked table.slots) (id : Nat)
    (slot : Fin (table.reserve id).slots.size) (hslot : slot.val < table.slots.size)
    {callee : Identifier} {statement : Bool}
    (hentry : (Entry.call callee table.slots.size statement).InRange
      (table.reserve id).slots.size) :
    Linked ((table.reserve id).append slot _ hentry).slots := by
  have hrefs : (references ((table.reserve id).append slot _ hentry).slots).Perm
      (table.slots.size :: references table.slots) := by
    have hperm := entries_append (table.reserve id) slot hentry
    rw [entries_reserve] at hperm
    exact hperm.filterMap Entry.slot?
  constructor
  · rw [size_append, size_reserve]
    exact Nat.succ_pos _
  · rw [hrefs.mem_iff, List.mem_cons, not_or]
    exact ⟨Nat.ne_of_lt h.size_pos, h.zero_notMem⟩
  · intro j hpos hlt
    rw [size_append, size_reserve] at hlt
    rw [hrefs.count_eq, List.count_cons]
    by_cases hj : table.slots.size = j
    · -- The new slot was not there, so nothing referred to it.
      have hnew : j ∉ references table.slots := fun hmem => absurd (h.lt_size j hmem) (by omega)
      simp [hj, List.count_eq_zero_of_not_mem hnew]
    · simp [hj, h.count_eq_one j hpos (by omega)]
  · intro j hj
    rw [size_append, size_reserve]
    rcases List.mem_cons.mp (hrefs.mem_iff.mp hj) with rfl | hj
    · exact Nat.lt_succ_self _
    · exact Nat.lt_succ_of_lt (h.lt_size j hj)
  · intro i entry j hin hj
    rcases mem_row_append hin with hold | ⟨rfl, rfl⟩
    · rw [row_reserve] at hold
      exact h.lt_slot i entry j hold hj
    · obtain rfl : table.slots.size = j := Option.some.inj hj
      exact hslot

end Slots

/-! ### What an accepted call does -/

namespace Lowering

/-- How an accepted call changes the table: not at all when a node is left or a
program is entered as root, by one entry for a literal, and by one slot and one
entry for a call. -/
inductive Effect (table : Slots) : Visit Source → Slots → Prop
  | exit {here : Located Source} {parent : Option (Located Source)} :
      Effect table ⟨.exit, here, parent⟩ table
  | program {body : List Source} {id : Nat} :
      Effect table ⟨.enter, ⟨.program body, id⟩, none⟩ table
  | literal {t : Source} {tree : Target} {id : Nat} {slot : Fin table.slots.size}
      {p : Located Source} (ht : t.literal? = some tree)
      (hslot : table.bindings[p.id]? = some slot.val) :
      Effect table ⟨.enter, ⟨t, id⟩, some p⟩
        (table.append slot (.node tree) (Entry.inRange_node _ _))
  | call {name : String} {params : List Source} {id : Nat}
      {slot : Fin (table.reserve id).slots.size} {p : Located Source}
      (hslot : (table.reserve id).bindings[p.id]? = some slot.val) :
      Effect table ⟨.enter, ⟨.call name params, id⟩, some p⟩
        ((table.reserve id).append slot (callEntry table (some p) name)
          (inRange_callEntry table (some p) name id))

theorem append_accepted {entry : Entry} {here : Located Source} {parent : Option (Located Source)}
    {table s s' : Slots} {hentry : entry.InRange table.slots.size}
    (h : outcome (append table entry hentry here parent) s = (.ok (), s')) :
    ∃ p slot, parent = some p ∧ table.bindings[p.id]? = some slot.val ∧
      s' = table.append slot entry hentry := by
  rw [outcome_append] at h
  cases hslot : table.slotOf? (parent.map (·.id)) with
  | none => simp [hslot] at h
  | some slot =>
      simp only [hslot, Prod.mk.injEq, true_and] at h
      obtain ⟨i, hi, hbound⟩ := Slots.bound_of_slotOf? hslot
      obtain ⟨p, rfl, rfl⟩ := Option.map_eq_some_iff.mp hi
      exact ⟨p, slot, rfl, hbound, h.symm⟩

theorem effect_of_accepted {a : Visit Source} {table table' : Slots}
    (h : outcome (visitor.act a) table = (.ok (), table')) : Effect table a table' := by
  obtain ⟨phase, ⟨node, id⟩, parent⟩ := a
  cases phase with
  | exit =>
      have hexit : outcome (visitor.act ⟨.exit, ⟨node, id⟩, parent⟩) table = (.ok (), table) := by
        cases node <;> rfl
      rw [hexit] at h
      cases h
      exact .exit
  | enter =>
      cases node with
      | program body =>
          cases parent with
          | none => cases h; exact .program
          | some p => cases h
      | number value =>
          have h : outcome (append table (.node (.number value)) _ ⟨.number value, id⟩ parent)
            table = _ := h
          obtain ⟨p, slot, rfl, hslot, rfl⟩ := append_accepted h
          exact .literal rfl hslot
      | string value =>
          have h : outcome (append table (.node (.string value)) _ ⟨.string value, id⟩ parent)
            table = _ := h
          obtain ⟨p, slot, rfl, hslot, rfl⟩ := append_accepted h
          exact .literal rfl hslot
      | call name params =>
          -- The slot is reserved before its reference is put into the slot of the parent.
          change outcome (enterCall ⟨.call name params, id⟩ parent) table = _ at h
          simp only [enterCall, outcome_bind, outcome_get, outcome_set] at h
          obtain ⟨p, slot, rfl, hslot, rfl⟩ := append_accepted h
          exact .call hslot

end Lowering

/-! ### The invariant -/

def Visit.entersCall (a : Visit Source) : Bool :=
  a.phase = .enter && a.here.node.kind = .callExpression

def Visit.entersBelowRoot (a : Visit Source) : Bool :=
  a.phase = .enter && a.here.id ≠ 0

namespace Slots

/-- The table after the calls `done`.  Bindings lead to slots that are there, and
different ones for different nodes; the root and every call that was entered is
bound.  There is a slot for the root and one for each of these calls, they are
well linked, and there is one entry for each node entered below the root. -/
structure Sound (done : List (Visit Source)) (table : Slots) : Prop where
  bound_lt : ∀ id slot : Nat, table.bindings[id]? = some slot → slot < table.slots.size
  bound_inj : ∀ id id' slot : Nat, table.bindings[id]? = some slot →
    table.bindings[id']? = some slot → id = id'
  root_bound : table.bindings[0]? ≠ none
  call_bound : ∀ a ∈ done, a.entersCall = true → table.bindings[a.here.id]? ≠ none
  size_eq : table.slots.size = 1 + done.countP Visit.entersCall
  linked : Linked table.slots
  pending_eq : pending table.slots = done.countP Visit.entersBelowRoot
  literal : ∀ tree, .node tree ∈ entries table.slots → tree.kind.IsLiteral

theorem getElem?_bindings_initial (i : Nat) :
    initial.bindings[i]? = if 0 = i then some 0 else none := by
  simp [initial, Std.TreeMap.getElem?_insert]

theorem linked_initial : Linked initial.slots where
  size_pos := Nat.one_pos
  zero_notMem := List.not_mem_nil
  count_eq_one j hpos hlt := absurd (Nat.lt_one_iff.mp hlt) (Nat.ne_of_gt hpos)
  lt_size j hj := by cases hj
  lt_slot i entry j hentry hj := by
    have hmem : entry ∈ entries initial.slots := mem_entries_iff.mpr ⟨i, hentry⟩
    cases hmem

theorem sound_initial : Sound [] initial where
  bound_lt := initial.bound_lt
  bound_inj id id' slot h h' := by
    rw [getElem?_bindings_initial] at h h'
    grind
  root_bound := by simp [getElem?_bindings_initial]
  call_bound a ha := by cases ha
  size_eq := rfl
  linked := linked_initial
  pending_eq := rfl
  literal tree h := by cases h

variable {done : List (Visit Source)} {a : Visit Source}

theorem Sound.call_bound_concat (h : Sound done table) (hcall : a.entersCall = false)
    (b : Visit Source) (hb : b ∈ done ++ [a]) (hb' : b.entersCall = true) :
    table.bindings[b.here.id]? ≠ none := by
  rcases List.mem_append.mp hb with hb | hb
  · exact h.call_bound b hb hb'
  · rw [List.mem_singleton.mp hb, hcall] at hb'
    cases hb'

theorem Sound.idle (h : Sound done table) (hcall : a.entersCall = false)
    (hbelow : a.entersBelowRoot = false) : Sound (done ++ [a]) table where
  bound_lt := h.bound_lt
  bound_inj := h.bound_inj
  root_bound := h.root_bound
  call_bound := h.call_bound_concat hcall
  size_eq := by simp [h.size_eq, hcall]
  linked := h.linked
  pending_eq := by simp [h.pending_eq, hbelow]
  literal := h.literal

theorem Sound.literal_entered (h : Sound done table) {tree : Target} (htree : tree.kind.IsLiteral)
    (slot : Fin table.slots.size) (hentry : (Entry.node tree).InRange table.slots.size)
    (hcall : a.entersCall = false) (hbelow : a.entersBelowRoot = true) :
    Sound (done ++ [a]) (table.append slot (.node tree) hentry) where
  bound_lt := (table.append slot (.node tree) hentry).bound_lt
  bound_inj := h.bound_inj
  root_bound := h.root_bound
  call_bound := h.call_bound_concat hcall
  size_eq := by simp [size_append, h.size_eq, hcall]
  linked := h.linked.append_node slot hentry
  pending_eq := by simp [pending_append, h.pending_eq, hbelow]
  literal t ht := by
    rcases List.mem_cons.mp ((entries_append table slot hentry).mem_iff.mp ht) with heq | ht
    · cases heq
      exact htree
    · exact h.literal t ht

/-- The binding of a new node is to a slot that no other node has. -/
theorem Sound.bound_inj_reserve (h : Sound done table) (new : Nat) {id id' s : Nat}
    (hid : (table.reserve new).bindings[id]? = some s)
    (hid' : (table.reserve new).bindings[id']? = some s) : id = id' := by
  have hnew : ∀ i : Nat, table.bindings[i]? ≠ some table.slots.size :=
    fun i hi => Nat.lt_irrefl _ (h.bound_lt i _ hi)
  rw [getElem?_bindings_reserve] at hid hid'
  split at hid <;> split at hid'
  · omega
  · cases hid
    exact absurd hid' (hnew id')
  · cases hid'
    exact absurd hid (hnew id)
  · exact h.bound_inj id id' s hid hid'

theorem Sound.call_entered (h : Sound done table) (slot : Fin (table.reserve a.here.id).slots.size)
    (hslot : slot.val < table.slots.size) (hcall : a.entersCall = true)
    (hbelow : a.entersBelowRoot = true) {callee : Identifier} {statement : Bool}
    (hentry : (Entry.call callee table.slots.size statement).InRange
      (table.reserve a.here.id).slots.size) :
    Sound (done ++ [a]) ((table.reserve a.here.id).append slot _ hentry) := by
  -- What was bound stays bound, though maybe to another slot.
  have hbound : ∀ i : Nat, table.bindings[i]? ≠ none ∨ i = a.here.id →
      (table.reserve a.here.id).bindings[i]? ≠ none := by
    intro i hi
    rw [getElem?_bindings_reserve]
    split
    · exact Option.some_ne_none _
    · rename_i hne
      exact hi.resolve_right (Ne.symm hne)
  constructor
  · exact Slots.bound_lt _
  · intro id id' s
    exact h.bound_inj_reserve a.here.id
  · exact hbound 0 (.inl h.root_bound)
  · intro b hb hb'
    rcases List.mem_append.mp hb with hb | hb
    · exact hbound _ (.inl (h.call_bound b hb hb'))
    · exact hbound _ (.inr (by rw [List.mem_singleton.mp hb]))
  · rw [size_append, size_reserve, h.size_eq, List.countP_append, List.countP_singleton, hcall]
    rfl
  · exact h.linked.append_call a.here.id slot hslot hentry
  · rw [pending_append, pending_reserve, h.pending_eq, List.countP_append,
      List.countP_singleton, hbelow]
    rfl
  · intro t ht
    rcases List.mem_cons.mp ((entries_append _ slot hentry).mem_iff.mp ht) with heq | ht
    · cases heq
    · rw [entries_reserve] at ht
      exact h.literal t ht

open Lowering

/-- Every accepted call keeps the invariant. -/
theorem Sound.step {table' : Slots} (h : Sound done table) (ha : a.Numbered)
    (hrun : outcome (visitor.act a) table = (.ok (), table')) : Sound (done ++ [a]) table' := by
  have heffect := effect_of_accepted hrun
  cases heffect with
  | exit => exact h.idle rfl rfl
  | @program body id =>
      obtain rfl : id = 0 := ha
      exact h.idle rfl rfl
  | @literal t tree id slot p ht hslot =>
      have hpos : id ≠ 0 := Nat.ne_of_gt (Nat.zero_lt_of_lt ha)
      refine h.literal_entered ?_ slot _ ?_ (by simp [Visit.entersBelowRoot, hpos])
      · cases t <;> cases ht
        · exact .inl rfl
        · exact .inr rfl
      · cases t <;> cases ht <;> rfl
  | @call name params id slot p hslot =>
      have hlt : p.id < id := ha
      have hpos : id ≠ 0 := Nat.ne_of_gt (Nat.zero_lt_of_lt hlt)
      -- The parent has another number than the call, so its slot is an old one.
      rw [getElem?_bindings_reserve, if_neg (Nat.ne_of_gt hlt)] at hslot
      exact h.call_entered slot (h.bound_lt _ _ hslot) rfl (by simp [Visit.entersBelowRoot, hpos]) _

theorem Sound.run {calls : List (Visit Source)} {table' : Slots} (h : Sound done table)
    (hcalls : ∀ a ∈ calls, a.Numbered) (hrun : Accepts visitor.act table calls table') :
    Sound (done ++ calls) table' := by
  induction hrun generalizing done with
  | nil => simpa using h
  | @cons a as s s₁ s' ha _ ih =>
      rw [List.forall_mem_cons] at hcalls
      have hstep := h.step hcalls.1 ha
      simpa using ih hstep hcalls.2

theorem Sound.takenOnce (h : Sound done table) : TakenOnce table :=
  h.linked.takenOnce h.literal

end Slots

theorem UpToRefusal.mem_plan {N σ : Type} {act : Visit N → VisitM σ Unit}
    {plan calls : List (Visit N)} {last ending : Except WalkError Unit} {s s' : σ}
    (h : UpToRefusal act plan last s calls ending s') {a : Visit N} (ha : a ∈ calls) :
    a ∈ plan := by
  cases h with
  | through => exact ha
  | @refused before after b e s₁ _ hplan =>
      rw [hplan, List.append_cons]
      exact List.mem_append_left after ha

open Slots

/-- Lowering makes the calls of a walk up to the first that it refuses.  As long
as none is refused the table is sound for the calls made so far, and such a
table is put together by taking every slot once. -/
theorem lower_keeps_slots_sound (root : Source) :
    ∃ calls ending last,
      UpToRefusal Lowering.visitor.act (walk Visitor.listing root #[]).2.toList
        (walk Visitor.listing root #[]).1 initial calls ending last ∧
      Lowering.visitor.walk root initial = (ending, last) ∧
      lower root = ending.map (fun _ => last.finish) ∧
      ∀ done table, done <+: calls → Accepts Lowering.visitor.act initial done table →
        Sound done table ∧ TakenOnce table := by
  obtain ⟨calls, ending, last, hupto, hfollow, -⟩ :=
    (itinerary root).exists_upToRefusal Lowering.visitor.act id initial #[]
  have hwalk : Lowering.visitor.walk root initial = (ending, last) := by
    rw [SourceVisitor.walk_eq_follow, hfollow]
  refine ⟨calls, ending, last, by rwa [walk_listing], hwalk, ?_, ?_⟩
  · rw [lower, hwalk]
    cases ending <;> rfl
  · intro done table hdone haccepts
    have hnumbered : ∀ a ∈ done, a.Numbered := fun a ha =>
      numbered_of_mem_itinerary (hupto.mem_plan (hdone.subset ha))
    have hsound : Sound done table := sound_initial.run hnumbered haccepts
    exact ⟨hsound, hsound.takenOnce⟩

/-- A program with a call inside a call and a literal behind them. -/
def nestedCalls : Source :=
  .program [.call "f" [.number "1", .call "g" []], .string "x"]

theorem lower_keeps_slots_sound_nestedCalls :
    ∃ table : Slots, lower nestedCalls = .ok table.finish ∧ table.slots.size = 3 ∧
      pending table.slots = 4 ∧ TakenOnce table := by
  obtain ⟨calls, ending, last, hupto, -, hlower, hsound⟩ := lower_keeps_slots_sound nestedCalls
  cases hupto with
  | through h =>
      obtain ⟨hlast, honce⟩ := hsound _ last List.prefix_rfl h
      have hending : (walk Visitor.listing nestedCalls #[]).1 = .ok () := by decide +kernel
      rw [hending] at hlower
      refine ⟨last, hlower, ?_, ?_, honce⟩
      · rw [hlast.size_eq]
        decide +kernel
      · rw [hlast.pending_eq]
        decide +kernel
  | refused hplan h ha =>
      have hok : (lower nestedCalls).isOk = true := by decide +kernel
      rw [hlower] at hok
      cases hok

end Polish
