import Polish.Target
import Std.Data.TreeMap

/-!
A table of slots, from which a target tree is put together.  While a source
tree is walked its nodes are met one by one and their parents are not finished
yet, so what belongs below a node is collected in a slot and the node refers
to the slot by its number.  Slot zero holds the body of the program; every
call reserves a slot for its arguments.  The numbers that a walk gives to the
nodes are bound to the slots that collect their children.

No number of a slot is ever out of range: it is a part of an arena that its
entries refer to slots that are there, and a part of a table that its bindings
do.  So a slot is asked for with a proof that it exists.

Putting the tree together takes the entries out of a slot and, for each call
among them, takes the slot of its arguments in turn.  A slot that was taken is
left empty, so the number of entries in the arena goes down, and this is what
the recursion ends by.
-/

namespace Polish

/-- What a slot holds: a finished node, or a call whose arguments are in
another slot, to be wrapped in a statement or not. -/
inductive Entry
  | node (tree : Target)
  | call (callee : Identifier) (arguments : Nat) (statement : Bool)
  deriving DecidableEq, Repr

namespace Entry

def slot? : Entry → Option Nat
  | .node _ => none
  | .call _ arguments _ => some arguments

/-- The entry refers to one of the first `n` slots, if to any. -/
def InRange (n : Nat) (entry : Entry) : Prop :=
  ∀ j, entry.slot? = some j → j < n

theorem InRange.mono {n m : Nat} {entry : Entry} (h : entry.InRange n) (hle : n ≤ m) :
    entry.InRange m :=
  fun j hj => Nat.lt_of_lt_of_le (h j hj) hle

theorem inRange_node (tree : Target) (n : Nat) : (node tree).InRange n := nofun

end Entry

namespace Slots

def entries (slots : Array (Array Entry)) : List Entry :=
  slots.toList.flatMap Array.toList

def pending (slots : Array (Array Entry)) : Nat :=
  (entries slots).length

theorem perm_flatMap_set (rows : List (Array Entry)) (i : Nat) (h : i < rows.length) :
    (rows[i].toList ++ (rows.set i #[]).flatMap Array.toList).Perm (rows.flatMap Array.toList) := by
  induction rows generalizing i with
  | nil => cases h
  | cons row rows ih =>
    cases i with
    | zero => simp
    | succ i =>
      simp only [List.getElem_cons_succ, List.set_cons_succ, List.flatMap_cons]
      refine (List.perm_append_comm_assoc ..).trans ?_
      exact (ih i (Nat.lt_of_succ_lt_succ h)).append_left _

/-- What a slot holds and what is left when it is emptied is all there is. -/
theorem perm_entries_set (slots : Array (Array Entry)) (i : Nat) (h : i < slots.size) :
    (slots[i].toList ++ entries (slots.set i #[] h)).Perm (entries slots) := by
  have hperm := perm_flatMap_set slots.toList i h
  rwa [Array.getElem_toList, ← Array.toList_set] at hperm

theorem perm_entries_modify {slots : Array (Array Entry)} {i : Nat} (h : i < slots.size)
    (entry : Entry) :
    (entries (slots.modify i (·.push entry))).Perm (entry :: entries slots) := by
  simp only [entries, Array.toList_modify]
  rw [← Array.length_toList] at h
  generalize slots.toList = rows at h ⊢
  induction rows generalizing i with
  | nil => cases h
  | cons row rows ih =>
    cases i with
    | zero => simp [List.modify_zero_cons]
    | succ i =>
      rw [List.modify_succ_cons, List.flatMap_cons, List.flatMap_cons]
      refine ((ih (Nat.lt_of_succ_lt_succ h)).append_left _).trans ?_
      exact List.perm_middle

theorem entries_push_empty (slots : Array (Array Entry)) :
    entries (slots.push #[]) = entries slots := by
  simp [entries]

end Slots

open Slots

/-- Slots whose entries refer to slots that are there. -/
structure Arena where
  slots : Array (Array Entry)
  inRange : ∀ entry ∈ entries slots, entry.InRange slots.size

/-- An arena, and which of its slots collects the children of which node. -/
structure Slots extends Arena where
  bindings : Std.TreeMap Nat Nat
  size_pos : 0 < slots.size
  bound_lt : ∀ id slot : Nat, bindings[id]? = some slot → slot < slots.size

namespace Slots

def initial : Slots where
  slots := #[#[]]
  inRange := nofun
  bindings := (∅ : Std.TreeMap Nat Nat).insert 0 0
  size_pos := Nat.one_pos
  bound_lt id slot h := by
    rw [Std.TreeMap.getElem?_insert] at h
    split at h
    · cases h
      exact Nat.one_pos
    · simp at h

def reserve (table : Slots) (id : Nat) : Slots where
  slots := table.slots.push #[]
  inRange entry hentry := by
    rw [entries_push_empty] at hentry
    rw [Array.size_push]
    exact (table.inRange entry hentry).mono (Nat.le_succ _)
  bindings := table.bindings.insert id table.slots.size
  size_pos := by
    rw [Array.size_push]
    exact Nat.succ_pos _
  bound_lt i slot h := by
    rw [Std.TreeMap.getElem?_insert] at h
    rw [Array.size_push]
    split at h
    · cases h
      exact Nat.lt_succ_self _
    · exact Nat.lt_succ_of_lt (table.bound_lt i slot h)

/-- The slot bound to a node, if there is a node and it has one. -/
def slotOf? (table : Slots) (id : Option Nat) : Option (Fin table.slots.size) :=
  id.bind fun i =>
    match h : table.bindings[i]? with
    | none => none
    | some slot => some ⟨slot, table.bound_lt i slot h⟩

theorem slotOf?_of_bound {table : Slots} {i slot : Nat} (h : table.bindings[i]? = some slot) :
    table.slotOf? (some i) = some ⟨slot, table.bound_lt i slot h⟩ := by
  simp only [slotOf?, Option.bind_some]
  split
  · next hnone => cases hnone.symm.trans h
  · next hsome =>
    cases hsome.symm.trans h
    rfl

theorem bound_of_slotOf? {table : Slots} {id : Option Nat} {slot : Fin table.slots.size}
    (h : table.slotOf? id = some slot) : ∃ i, id = some i ∧ table.bindings[i]? = some slot.val := by
  cases id with
  | none => cases h
  | some i =>
    simp only [slotOf?, Option.bind_some] at h
    split at h
    · cases h
    · next hbound =>
      cases h
      exact ⟨i, rfl, hbound⟩

def append (table : Slots) (slot : Fin table.slots.size) (entry : Entry)
    (h : entry.InRange table.slots.size) : Slots where
  slots := table.slots.modify slot (·.push entry)
  inRange e he := by
    rw [Array.size_modify]
    rcases List.mem_cons.mp ((perm_entries_modify slot.isLt entry).mem_iff.mp he) with rfl | he
    · exact h
    · exact table.inRange e he
  bindings := table.bindings
  size_pos := by
    rw [Array.size_modify]
    exact table.size_pos
  bound_lt i s hs := by
    rw [Array.size_modify]
    exact table.bound_lt i s hs

end Slots

/-! ### Putting the tree together -/

namespace Arena

variable (a : Arena) (i : Nat) (h : i < a.slots.size)

def emptied : Arena where
  slots := a.slots.set i #[] h
  inRange entry hentry := by
    rw [Array.size_set]
    refine a.inRange entry ((perm_entries_set a.slots i h).subset ?_)
    exact List.mem_append_right _ hentry

theorem size_emptied : (a.emptied i h).slots.size = a.slots.size :=
  Array.size_set h

theorem inRange_row (entry : Entry) (hentry : entry ∈ a.slots[i].toList) :
    entry.InRange (a.emptied i h).slots.size := by
  rw [size_emptied]
  exact a.inRange entry ((perm_entries_set a.slots i h).subset (List.mem_append_left _ hentry))

theorem pending_emptied :
    pending (a.emptied i h).slots + a.slots[i].toList.length = pending a.slots := by
  have hperm := (perm_entries_set a.slots i h).length_eq
  rw [List.length_append] at hperm
  exact (Nat.add_comm _ _).trans hperm

end Arena

/-- What was built from an arena: the trees, the slots that were taken on the
way, in order, and the arena that is left.  It has as many slots as before and
no more entries. -/
structure Assembled (a : Arena) where
  built : List Target
  taken : List Nat
  left : Arena
  size_left : left.slots.size = a.slots.size
  left_le : pending left.slots ≤ pending a.slots

namespace Arena

mutual

/-- Build the trees of a slot, emptying it and every slot it refers to. -/
def assemble (a : Arena) (i : Nat) (h : i < a.slots.size) : Assembled a :=
  let found := assembleAll (a.emptied i h) a.slots[i].toList (a.inRange_row i h)
  ⟨found.built, i :: found.taken, found.left, found.size_left.trans (a.size_emptied i h),
    Nat.le_trans found.left_le (Nat.le.intro (a.pending_emptied i h))⟩
-- The entries of the slot are no longer pending, and count as a list instead.
termination_by 2 * pending a.slots + 1
decreasing_by
  have := a.pending_emptied i h
  omega

def assembleAll (a : Arena) (entries : List Entry)
    (h : ∀ entry ∈ entries, entry.InRange a.slots.size) : Assembled a :=
  match entries, h with
  | [], _ => ⟨[], [], a, rfl, Nat.le_refl _⟩
  | .node tree :: entries, h =>
    let others := assembleAll a entries fun entry hentry => h entry (.tail _ hentry)
    ⟨tree :: others.built, others.taken, others.left, others.size_left, others.left_le⟩
  | .call callee arguments statement :: entries, h =>
    let inner := assemble a arguments (h _ (.head _) arguments rfl)
    let call := Target.call callee inner.built
    let others := assembleAll inner.left entries fun entry hentry =>
      inner.size_left ▸ h entry (.tail _ hentry)
    ⟨(if statement then .statement call else call) :: others.built, inner.taken ++ others.taken,
      others.left, others.size_left.trans inner.size_left,
      Nat.le_trans others.left_le inner.left_le⟩
termination_by 2 * (pending a.slots + entries.length)
decreasing_by
  · simp only [List.length_cons]; omega
  · simp only [List.length_cons]; omega
  · exact Nat.mul_lt_mul_of_pos_left
      (Nat.add_lt_add_of_le_of_lt (Assembled.left_le _) (Nat.lt_succ_self _)) (by decide)

end

section

variable (a : Arena) {i : Nat} (h : i < a.slots.size)

theorem built_assemble :
    (a.assemble i h).built =
      ((a.emptied i h).assembleAll a.slots[i].toList (a.inRange_row i h)).built := by
  rw [assemble]

theorem taken_assemble :
    (a.assemble i h).taken =
      i :: ((a.emptied i h).assembleAll a.slots[i].toList (a.inRange_row i h)).taken := by
  rw [assemble]

theorem left_assemble :
    (a.assemble i h).left =
      ((a.emptied i h).assembleAll a.slots[i].toList (a.inRange_row i h)).left := by
  rw [assemble]

end

variable {a : Arena}

theorem assembleAll_nil (h : ∀ e ∈ [], Entry.InRange a.slots.size e) :
    a.assembleAll [] h = ⟨[], [], a, rfl, Nat.le_refl _⟩ := by
  rw [assembleAll]

theorem assembleAll_node {tree : Target} {es : List Entry}
    (h : ∀ e ∈ Entry.node tree :: es, e.InRange a.slots.size) :
    a.assembleAll (.node tree :: es) h =
      let others := a.assembleAll es fun e he => h e (.tail _ he)
      ⟨tree :: others.built, others.taken, others.left, others.size_left, others.left_le⟩ := by
  rw [assembleAll]

theorem assembleAll_call {callee : Identifier} {i : Nat} {statement : Bool} {es : List Entry}
    (h : ∀ e ∈ Entry.call callee i statement :: es, e.InRange a.slots.size)
    (hi : i < a.slots.size) (hes : ∀ e ∈ es, e.InRange (a.assemble i hi).left.slots.size) :
    a.assembleAll (.call callee i statement :: es) h =
      let inner := a.assemble i hi
      let call := Target.call callee inner.built
      let others := inner.left.assembleAll es hes
      ⟨(if statement then .statement call else call) :: others.built, inner.taken ++ others.taken,
        others.left, others.size_left.trans inner.size_left,
        Nat.le_trans others.left_le inner.left_le⟩ := by
  rw [assembleAll]

end Arena

namespace Slots

def assembled (table : Slots) : Assembled table.toArena :=
  table.assemble 0 table.size_pos

/-- The program whose body is in slot zero. -/
def finish (table : Slots) : Target :=
  .program table.assembled.built

end Slots

end Polish
