import Mathlib.Data.List.Nodup
import Polish.Proofs.Forest
import Polish.Slots

/-!
Putting a table together takes each of its slots once.

Two laws hold for every arena and all entries that refer to slots in it.  An
entry goes into the trees that are built or stays where it is, and the slots
that are taken are those of the calls that went into a tree (`PlacedIn`).  The
slots that were taken are empty and the others as before
(`row_left_assembleAll`).

A table is well linked if the calls among its entries refer to every slot but
the first, to each of them once, and always to a later slot than their own.  For
such a table it follows that every slot is taken: a call that stays would stand
in a slot before the one it refers to, and that slot is taken.
-/

namespace Polish

/-- What a tree is made of: a call, in a statement or not, with its arguments
left out, or a tree that is not looked into. -/
inductive Piece
  | leaf (tree : Target)
  | call (callee : Identifier) (statement : Bool)
  deriving DecidableEq, Repr

/-- What an entry adds to the tree it is placed in. -/
def Entry.piece : Entry → Piece
  | .node tree => .leaf tree
  | .call callee _ statement => .call callee statement

namespace Target

mutual

def pieces : Target → List Piece
  | .call callee arguments => .call callee false :: piecesList arguments
  | .statement (.call callee arguments) => .call callee true :: piecesList arguments
  | tree => [.leaf tree]

def piecesList : List Target → List Piece
  | [] => []
  | t :: ts => t.pieces ++ piecesList ts

end

theorem pieces_of_isLiteral {t : Target} (h : t.kind.IsLiteral) : t.pieces = [.leaf t] := by
  obtain ⟨value, rfl⟩ | ⟨value, rfl⟩ := eq_of_isLiteral h <;> rfl

theorem pieces_call (callee : Identifier) (arguments : List Target) (statement : Bool) :
    pieces (if statement then .statement (.call callee arguments) else .call callee arguments) =
      .call callee statement :: piecesList arguments := by
  cases statement <;> rfl

end Target

namespace Slots

def row (slots : Array (Array Entry)) (i : Nat) : List Entry :=
  (slots[i]?.getD #[]).toList

def references (slots : Array (Array Entry)) : List Nat :=
  (entries slots).filterMap Entry.slot?

variable {slots : Array (Array Entry)}

theorem row_eq {i : Nat} (h : i < slots.size) : row slots i = slots[i].toList := by
  rw [row, Array.getElem?_eq_getElem h, Option.getD_some]

theorem mem_entries_iff {entry : Entry} : entry ∈ entries slots ↔ ∃ i, entry ∈ row slots i := by
  simp only [entries, row, List.mem_flatMap]
  constructor
  · rintro ⟨held, hheld, hentry⟩
    obtain ⟨i, hi⟩ := List.mem_iff_getElem?.mp hheld
    rw [Array.getElem?_toList] at hi
    exact ⟨i, by simpa [hi] using hentry⟩
  · rintro ⟨i, hentry⟩
    cases hi : slots[i]? with
    | none => simp [hi] at hentry
    | some held =>
        refine ⟨held, ?_, by simpa [hi] using hentry⟩
        rw [← Array.getElem?_toList] at hi
        exact List.mem_of_getElem? hi

theorem mem_references_iff {j : Nat} :
    j ∈ references slots ↔ ∃ i entry, entry ∈ row slots i ∧ entry.slot? = some j := by
  simp only [references, List.mem_filterMap, mem_entries_iff]
  constructor
  · rintro ⟨entry, ⟨i, hentry⟩, hslot⟩
    exact ⟨i, entry, hentry, hslot⟩
  · rintro ⟨i, entry, hentry, hslot⟩
    exact ⟨entry, ⟨i, hentry⟩, hslot⟩

end Slots

open Slots

/-! ### Entries put together -/

namespace Arena

variable {a : Arena}

theorem row_emptied (a : Arena) {i : Nat} (h : i < a.slots.size) (j : Nat) :
    row (a.emptied i h).slots j = if i = j then [] else row a.slots j := by
  simp only [row, emptied, Array.getElem?_set]
  split <;> rfl

/-- Induction along the putting together of entries: the slot of a call is
taken before the entries behind the call are looked at. -/
@[elab_as_elim] theorem assembly_induction
    {motive : (a : Arena) → (es : List Entry) → (∀ e ∈ es, e.InRange a.slots.size) → Prop}
    (nil : ∀ a h, motive a [] h)
    (node : ∀ a tree es h, motive a es (fun e he => h e (.tail _ he)) →
      motive a (.node tree :: es) h)
    (call : ∀ a callee i statement es h (hi : i < a.slots.size) hes,
      motive (a.emptied i hi) a.slots[i].toList (a.inRange_row i hi) →
      motive (a.assemble i hi).left es hes → motive a (.call callee i statement :: es) h)
    (a : Arena) (es : List Entry) (h : ∀ e ∈ es, e.InRange a.slots.size) : motive a es h :=
  match es, h with
  | [], h => nil a h
  | .node tree :: es, h =>
      node a tree es h (assembly_induction nil node call a es fun e he => h e (.tail _ he))
  | .call callee i statement :: es, h =>
      have hi : i < a.slots.size := h _ (.head _) i rfl
      have hes : ∀ e ∈ es, e.InRange (a.assemble i hi).left.slots.size := fun e he =>
        (a.assemble i hi).size_left ▸ h e (.tail _ he)
      call a callee i statement es h hi hes
        (assembly_induction nil node call (a.emptied i hi) a.slots[i].toList (a.inRange_row i hi))
        (assembly_induction nil node call (a.assemble i hi).left es hes)
termination_by pending a.slots + es.length
decreasing_by
  · simp only [List.length_cons]; omega
  · have := a.pending_emptied i hi
    simp only [List.length_cons]
    omega
  · exact Nat.add_lt_add_of_le_of_lt (Assembled.left_le _) (Nat.lt_succ_self _)

/-- The entries `placed` have gone into the trees that were built from `es`, in
this order, and the slots that were taken are the ones they refer to.  All other
entries are where they were. -/
structure PlacedIn {a : Arena} (es : List Entry) (found : Assembled a) (placed : List Entry) :
    Prop where
  perm : (placed ++ entries found.left.slots).Perm (es ++ entries a.slots)
  taken : found.taken = placed.filterMap Entry.slot?
  pieces : (∀ tree, .node tree ∈ placed → tree.kind.IsLiteral) →
    Target.piecesList found.built = placed.map Entry.piece

theorem exists_placedIn (a : Arena) (es : List Entry) (h : ∀ e ∈ es, e.InRange a.slots.size) :
    ∃ placed, PlacedIn es (a.assembleAll es h) placed := by
  induction a, es, h using assembly_induction with
  | nil a h =>
      rw [assembleAll_nil]
      exact ⟨[], .refl _, rfl, fun _ => rfl⟩
  | node a tree es h ih =>
      obtain ⟨placed, hplaced⟩ := ih
      rw [assembleAll_node]
      refine ⟨.node tree :: placed, hplaced.perm.cons _, hplaced.taken, fun hliteral => ?_⟩
      have hleaf := Target.pieces_of_isLiteral (hliteral tree List.mem_cons_self)
      have hothers := hplaced.pieces fun t ht => hliteral t (List.mem_cons_of_mem _ ht)
      simp only [Target.piecesList, hleaf, hothers, List.map_cons, Entry.piece,
        List.singleton_append]
  | call a callee i statement es h hi hes ihrow ihrest =>
      obtain ⟨inner, hinner⟩ := ihrow
      obtain ⟨placed, hplaced⟩ := ihrest
      rw [assembleAll_call h hi hes]
      refine ⟨.call callee i statement :: (inner ++ placed), ?_, ?_, fun hliteral => ?_⟩
      · -- What the rest leaves is moved behind the rest, and joins what the slot of the call held.
        rw [List.cons_append, List.append_assoc, List.cons_append]
        refine List.Perm.cons _ ((hplaced.perm.append_left inner).trans ?_)
        refine (List.perm_append_comm_assoc ..).trans ?_
        rw [left_assemble]
        exact (hinner.perm.trans (perm_entries_set a.slots i hi)).append_left es
      · simp only [taken_assemble, hinner.taken, hplaced.taken, List.filterMap_cons, Entry.slot?,
          List.filterMap_append, List.cons_append]
      · have hrow := hinner.pieces fun t ht =>
          hliteral t (List.mem_cons_of_mem _ (List.mem_append_left _ ht))
        have hrest := hplaced.pieces fun t ht =>
          hliteral t (List.mem_cons_of_mem _ (List.mem_append_right _ ht))
        simp only [Target.piecesList, Target.pieces_call, built_assemble, hrow, hrest,
          List.map_cons, List.map_append, Entry.piece, List.cons_append]

theorem row_left_assemble_of_row (a : Arena) {i : Nat} (h : i < a.slots.size) {j : Nat}
    (hrow : row ((a.emptied i h).assembleAll a.slots[i].toList (a.inRange_row i h)).left.slots j =
      if j ∈ ((a.emptied i h).assembleAll a.slots[i].toList (a.inRange_row i h)).taken then []
      else row (a.emptied i h).slots j) :
    row (a.assemble i h).left.slots j =
      if j ∈ (a.assemble i h).taken then [] else row a.slots j := by
  rw [left_assemble, hrow, row_emptied, taken_assemble]
  grind

/-- The slots that were taken are empty, and the others hold what they held. -/
theorem row_left_assembleAll (a : Arena) (es : List Entry)
    (h : ∀ e ∈ es, e.InRange a.slots.size) (j : Nat) :
    row (a.assembleAll es h).left.slots j =
      if j ∈ (a.assembleAll es h).taken then [] else row a.slots j := by
  induction a, es, h using assembly_induction with
  | nil a h =>
      rw [assembleAll_nil]
      exact (if_neg List.not_mem_nil).symm
  | node a tree es h ih =>
      rw [assembleAll_node]
      exact ih
  | call a callee i statement es h hi hes ihrow ihrest =>
      rw [assembleAll_call h hi hes]
      simp only [List.mem_append]
      rw [ihrest, row_left_assemble_of_row a hi ihrow]
      grind

theorem row_left_assemble (a : Arena) {i : Nat} (h : i < a.slots.size) (j : Nat) :
    row (a.assemble i h).left.slots j =
      if j ∈ (a.assemble i h).taken then [] else row a.slots j :=
  row_left_assemble_of_row a h (row_left_assembleAll _ _ _ j)

end Arena

/-! ### Tables that are well linked -/

namespace Slots

/-- Every slot but the first is referred to, by one entry, and that entry stands
in an earlier slot. -/
structure Linked (slots : Array (Array Entry)) : Prop where
  size_pos : 0 < slots.size
  zero_notMem : 0 ∉ references slots
  count_eq_one : ∀ j, 0 < j → j < slots.size → (references slots).count j = 1
  lt_size : ∀ j ∈ references slots, j < slots.size
  lt_slot : ∀ i entry j, entry ∈ row slots i → entry.slot? = some j → i < j

namespace Linked

variable {slots : Array (Array Entry)}

theorem nodup_references (h : Linked slots) : (references slots).Nodup := by
  rw [List.nodup_iff_count_le_one]
  intro j
  by_cases hj : j ∈ references slots
  · have hpos : 0 < j := Nat.pos_of_ne_zero fun hzero => h.zero_notMem (hzero ▸ hj)
    exact Nat.le_of_eq (h.count_eq_one j hpos (h.lt_size j hj))
  · rw [List.count_eq_zero_of_not_mem hj]
    exact Nat.zero_le 1

theorem mem_references (h : Linked slots) {j : Nat} (hpos : 0 < j) (hlt : j < slots.size) :
    j ∈ references slots := by
  apply List.count_pos_iff.mp
  rw [h.count_eq_one j hpos hlt]
  exact Nat.one_pos

end Linked

/-- Putting the tree together takes every slot once and no slot that is not
there, and leaves all slots empty.  The program that comes out is made of the
entries, each of them once, and the slots are taken in the order in which they
are referred to. -/
structure TakenOnce (table : Slots) : Prop where
  taken : table.assembled.taken.Perm (List.range table.slots.size)
  left : table.assembled.left.slots = Array.replicate table.slots.size #[]
  placed : ∃ (body : List Target) (placed : List Entry),
    table.finish = .program body ∧ placed.Perm (entries table.slots) ∧
    Target.piecesList body = placed.map Entry.piece ∧
    table.assembled.taken = 0 :: placed.filterMap Entry.slot?

variable {table : Slots}

theorem exists_placed (table : Slots) :
    ∃ placed : List Entry,
      (placed ++ entries table.assembled.left.slots).Perm (entries table.slots) ∧
      table.assembled.taken = 0 :: placed.filterMap Entry.slot? ∧
      ((∀ tree, .node tree ∈ placed → tree.kind.IsLiteral) →
        Target.piecesList table.assembled.built = placed.map Entry.piece) := by
  obtain ⟨placed, hplaced⟩ :=
    Arena.exists_placedIn (table.emptied 0 table.size_pos) _ (table.inRange_row 0 table.size_pos)
  refine ⟨placed, ?_, ?_, ?_⟩
  · rw [assembled, Arena.left_assemble]
    exact hplaced.perm.trans (perm_entries_set table.slots 0 table.size_pos)
  · rw [assembled, Arena.taken_assemble, hplaced.taken]
  · rw [assembled, Arena.built_assemble]
    exact hplaced.pieces

namespace Linked

theorem mem_taken (h : Linked table.slots) (j : Nat) (hlt : j < table.slots.size) :
    j ∈ table.assembled.taken := by
  obtain ⟨placed, hperm, htaken, -⟩ := exists_placed table
  induction j using Nat.strongRecOn with
  | ind j ih =>
      rw [htaken, List.mem_cons]
      by_cases hzero : j = 0
      · exact .inl hzero
      right
      have href := h.mem_references (Nat.pos_of_ne_zero hzero) hlt
      rw [references, ← (hperm.filterMap Entry.slot?).mem_iff, List.filterMap_append,
        List.mem_append] at href
      -- What refers to `j` stands in an earlier slot, and that one is taken, so it has not stayed.
      refine href.resolve_right fun hstays => ?_
      obtain ⟨i, entry, hentry, hslot⟩ := mem_references_iff.mp hstays
      rw [assembled, Arena.row_left_assemble] at hentry
      split at hentry
      · cases hentry
      · rename_i hnot
        have hij := h.lt_slot i entry j hentry hslot
        exact hnot (ih i hij (Nat.lt_trans hij hlt))

theorem perm_taken (h : Linked table.slots) :
    table.assembled.taken.Perm (List.range table.slots.size) := by
  obtain ⟨placed, hperm, htaken, -⟩ := exists_placed table
  have href := hperm.filterMap Entry.slot?
  rw [List.filterMap_append] at href
  have hmem : ∀ j ∈ placed.filterMap Entry.slot?, j ∈ references table.slots := fun j hj =>
    href.subset (List.mem_append_left _ hj)
  -- Slots are taken for the entries that refer to them, and no two entries refer to one.
  have hnodup : table.assembled.taken.Nodup := by
    rw [htaken, List.nodup_cons]
    exact ⟨fun hzero => h.zero_notMem (hmem 0 hzero),
      (href.nodup_iff.mpr h.nodup_references).of_append_left⟩
  apply (List.perm_ext_iff_of_nodup hnodup List.nodup_range).mpr
  intro j
  rw [List.mem_range]
  refine ⟨fun hj => ?_, h.mem_taken j⟩
  rw [htaken, List.mem_cons] at hj
  rcases hj with rfl | hj
  · exact h.size_pos
  · exact h.lt_size j (hmem j hj)

theorem left_eq (h : Linked table.slots) :
    table.assembled.left.slots = Array.replicate table.slots.size #[] := by
  have hsize := table.assembled.size_left
  ext1
  · rw [hsize, Array.size_replicate]
  · rename_i i hi hi'
    have hrow : row table.assembled.left.slots i = [] := by
      rw [assembled, Arena.row_left_assemble]
      exact if_pos (h.mem_taken i (hsize ▸ hi))
    rw [row_eq hi] at hrow
    rw [Array.getElem_replicate]
    exact Array.toList_eq_nil_iff.mp hrow

theorem takenOnce (h : Linked table.slots)
    (hliteral : ∀ tree, .node tree ∈ entries table.slots → tree.kind.IsLiteral) :
    TakenOnce table where
  taken := h.perm_taken
  left := h.left_eq
  placed := by
    obtain ⟨placed, hperm, htaken, hpieces⟩ := exists_placed table
    have hleft : entries table.assembled.left.slots = [] := by
      rw [h.left_eq]
      simp [entries]
    rw [hleft, List.append_nil] at hperm
    have hbuilt := hpieces fun tree htree => hliteral tree (hperm.mem_iff.mp htree)
    exact ⟨_, placed, rfl, hperm, hbuilt, htaken⟩

end Linked

end Slots

end Polish
