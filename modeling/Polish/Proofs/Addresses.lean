import Polish.Proofs.Outline
import Mathlib.Data.List.Perm.Basic

/-!
Where the nodes of a tree stand, and what a walk does at each of them.

An address says how to get to a node from the root: which child to take at each
step.  One node is above another exactly if its address is a beginning of the
other's.  `preorder` lists the nodes that the child rule leads to, with their
addresses, and `Account` says of a row of calls which of these nodes it enters,
numbered as listed, and which of them it leaves.

There are two ways for the itinerary of a tree to go.  Where the child rule
gives children everywhere, every node is entered and left (`Finished`).  Where
it fails, the first node of the list at which it does is the last to be
entered, and a node is left exactly if it is not on the way from the root to
that one (`Stopped`).  Both are proved for forests, with the address and the
number of the first node free.
-/

namespace Polish

open Itinerary

variable {N : Type}

/-- A node, and the indices of the children to take on the way to it. -/
structure Addressed (N : Type) where
  node : N
  address : List Nat

/-- The first node stands on the way from the root to the second: it is above
it, or it is that node itself. -/
def Addressed.OnWayTo (p m : Addressed N) : Prop :=
  p.address <+: m.address

instance (p m : Addressed N) : Decidable (p.OnWayTo m) :=
  inferInstanceAs (Decidable (_ <+: _))

namespace Walk

variable [Walkable N]

mutual

/-- The nodes that the child rule leads to from a node, itself first and then
those below it, child by child. -/
def preorder (n : N) (address : List Nat) : List (Addressed N) :=
  match _h : Walkable.children n with
  | .error _ => [⟨n, address⟩]
  | .ok cs => ⟨n, address⟩ :: preorderAll cs address 0
termination_by 2 * Walkable.size n
decreasing_by
  have := Walkable.size_children _h
  omega

def preorderAll (ns : List N) (address : List Nat) (index : Nat) : List (Addressed N) :=
  match ns with
  | [] => []
  | n :: rest => preorder n (address ++ [index]) ++ preorderAll rest address (index + 1)
termination_by 2 * total Walkable.size ns + 1
decreasing_by
  · rw [total_cons]
    omega
  · have := Walkable.size_pos n
    rw [total_cons]
    omega

end

theorem preorder_of_error {n : N} {e : WalkError} (h : Walkable.children n = .error e)
    (address : List Nat) : preorder n address = [⟨n, address⟩] := by
  rw [preorder]
  split <;> simp_all

theorem preorder_of_ok {n : N} {cs : List N} (h : Walkable.children n = .ok cs)
    (address : List Nat) : preorder n address = ⟨n, address⟩ :: preorderAll cs address 0 := by
  rw [preorder]
  split <;> simp_all

theorem preorderAll_nil (address : List Nat) (index : Nat) :
    preorderAll ([] : List N) address index = [] := by
  rw [preorderAll]

theorem preorderAll_cons (n : N) (rest : List N) (address : List Nat) (index : Nat) :
    preorderAll (n :: rest) address index =
      preorder n (address ++ [index]) ++ preorderAll rest address (index + 1) := by
  rw [preorderAll]

theorem mem_preorder_iff {n : N} {address : List Nat} {p : Addressed N} :
    p ∈ preorder n address ↔ p = ⟨n, address⟩ ∨
      ∃ cs, Walkable.children n = .ok cs ∧ p ∈ preorderAll cs address 0 := by
  cases hcs : Walkable.children n with
  | error e => simp [preorder_of_error hcs]
  | ok cs => simp [preorder_of_ok hcs]

theorem isPrefix_of_mem_preorder_of_children {n : N} {address : List Nat} {p : Addressed N}
    (hchildren : ∀ cs, Walkable.children n = .ok cs → p ∈ preorderAll cs address 0 →
      ∃ i, 0 ≤ i ∧ address ++ [i] <+: p.address)
    (hp : p ∈ preorder n address) : address <+: p.address := by
  rcases mem_preorder_iff.mp hp with rfl | ⟨cs, hcs, hp⟩
  · exact List.prefix_rfl
  · obtain ⟨i, -, hi⟩ := hchildren cs hcs hp
    exact (List.prefix_append _ _).trans hi

/-- The address of a node below begins with the address of the node above it and
the index of a child. -/
theorem exists_index_of_mem_preorderAll {ns : List N} {address : List Nat} {index : Nat}
    {p : Addressed N} (hp : p ∈ preorderAll ns address index) :
    ∃ i, index ≤ i ∧ address ++ [i] <+: p.address := by
  induction ns using Walkable.forest_induction generalizing address index with
  | nil =>
      rw [preorderAll_nil] at hp
      cases hp
  | cons n rest ihn ihrest =>
      rw [preorderAll_cons, List.mem_append] at hp
      rcases hp with hp | hp
      · have hprefix := isPrefix_of_mem_preorder_of_children (fun cs hcs => ihn cs hcs) hp
        exact ⟨index, Nat.le_refl index, hprefix⟩
      · obtain ⟨i, hle, hi⟩ := ihrest hp
        exact ⟨i, by omega, hi⟩

theorem isPrefix_of_mem_preorder {n : N} {address : List Nat} {p : Addressed N}
    (hp : p ∈ preorder n address) : address <+: p.address :=
  isPrefix_of_mem_preorder_of_children (fun _ _ => exists_index_of_mem_preorderAll) hp

/-- No node of a tree is above a node of a tree further to the right. -/
theorem not_onWayTo_of_mem_later {n : N} {rest : List N} {address : List Nat} {index : Nat}
    {p m : Addressed N} (hp : p ∈ preorder n (address ++ [index]))
    (hm : m ∈ preorderAll rest address (index + 1)) : ¬ p.OnWayTo m := by
  intro hpm
  obtain ⟨i, hle, hi⟩ := exists_index_of_mem_preorderAll hm
  have hindex : address ++ [index] <+: m.address := (isPrefix_of_mem_preorder hp).trans hpm
  have hsame : address ++ [index] <+: address ++ [i] :=
    List.prefix_of_prefix_length_le hindex hi (by simp)
  have heq : index = i := by simpa using hsame.eq_of_length (by simp)
  omega

theorem exists_mem_preorder_iff_of_children {m n : N} {address : List Nat}
    (hchildren : ∀ cs, Walkable.children n = .ok cs →
      ((∃ p ∈ preorderAll cs address 0, p.node = m) ↔ ∃ c ∈ cs, Reached m c)) :
    (∃ p ∈ preorder n address, p.node = m) ↔ Reached m n := by
  constructor
  · rintro ⟨p, hp, rfl⟩
    rcases mem_preorder_iff.mp hp with rfl | ⟨cs, hcs, hp⟩
    · exact .refl
    · obtain ⟨c, hc, hreached⟩ := (hchildren cs hcs).mp ⟨p, hp, rfl⟩
      exact .child hcs hc hreached
  · intro hreached
    cases hreached with
    | refl => exact ⟨_, mem_preorder_iff.mpr (.inl rfl), rfl⟩
    | child hcs hc h =>
        obtain ⟨p, hp, rfl⟩ := (hchildren _ hcs).mpr ⟨_, hc, h⟩
        exact ⟨p, mem_preorder_iff.mpr (.inr ⟨_, hcs, hp⟩), rfl⟩

theorem exists_mem_preorderAll_iff {m : N} {ns : List N} {address : List Nat} {index : Nat} :
    (∃ p ∈ preorderAll ns address index, p.node = m) ↔ ∃ n ∈ ns, Reached m n := by
  induction ns using Walkable.forest_induction generalizing address index with
  | nil => simp [preorderAll_nil]
  | cons n rest ihn ihrest =>
      have hn : (∃ p ∈ preorder n (address ++ [index]), p.node = m) ↔ Reached m n :=
        exists_mem_preorder_iff_of_children fun cs hcs => ihn cs hcs
      have hrest : (∃ p ∈ preorderAll rest address (index + 1), p.node = m) ↔
          ∃ r ∈ rest, Reached m r := ihrest
      rw [preorderAll_cons, List.exists_mem_cons_iff, ← hn, ← hrest]
      simp only [List.mem_append, or_and_right, exists_or]

theorem exists_mem_preorder_iff {m n : N} {address : List Nat} :
    (∃ p ∈ preorder n address, p.node = m) ↔ Reached m n :=
  exists_mem_preorder_iff_of_children fun _ _ => exists_mem_preorderAll_iff

end Walk

/-! ### Which nodes are entered and which are left -/

/-- The nodes that `calls` enter are `ps`, in this order and with the numbers
from `next` on, and those that they leave, in whatever order, are the ones for
which `left` holds. -/
structure Account (calls : List (Visit N)) (next : Nat) (ps : List (Addressed N))
    (left : Addressed N → Bool) : Prop where
  entered : (calls.filter (·.phase = .enter)).map (·.here) =
    (ps.zipIdx next).map fun p => ⟨p.1.node, p.2⟩
  left : ((calls.filter (·.phase = .exit)).map (·.here)).Perm
    (((ps.zipIdx next).filter fun p => left p.1).map fun p => ⟨p.1.node, p.2⟩)

namespace Account

variable {calls later : List (Visit N)} {next : Nat} {p : Addressed N} {ps qs : List (Addressed N)}
  {left : Addressed N → Bool}

theorem map_node_entered (h : Account calls next ps left) :
    (calls.filter (·.phase = .enter)).map (·.here.node) = ps.map (·.node) := by
  have hentered := congrArg (List.map Located.node) h.entered
  rw [List.map_map, List.map_map] at hentered
  rw [← List.zipIdx_map_fst next ps, List.map_map]
  exact hentered

theorem nil : Account [] next ([] : List (Addressed N)) left := ⟨rfl, .refl _⟩

theorem append (h : Account calls next ps left)
    (hlater : Account later (next + ps.length) qs left) :
    Account (calls ++ later) next (ps ++ qs) left := by
  constructor
  · rw [List.filter_append, List.map_append, List.zipIdx_append, List.map_append, h.entered,
      hlater.entered]
  · rw [List.filter_append, List.map_append, List.zipIdx_append, List.filter_append,
      List.map_append]
    exact h.left.append hlater.left

/-- A node that is entered and stays open around what comes after. -/
theorem opened (parent : Option (Located N)) (hp : left p = false)
    (h : Account calls (next + 1) ps left) :
    Account (⟨.enter, ⟨p.node, next⟩, parent⟩ :: calls) next (p :: ps) left := by
  constructor
  · simp [h.entered]
  · simpa [hp] using h.left

/-- A node that is left after what is below it. -/
theorem closed (parent : Option (Located N)) (hp : left p = true)
    (h : Account calls (next + 1) ps left) :
    Account (⟨.enter, ⟨p.node, next⟩, parent⟩ :: (calls ++ [⟨.exit, ⟨p.node, next⟩, parent⟩])) next
      (p :: ps) left := by
  constructor
  · simp [h.entered]
  · simpa [hp] using (List.perm_append_singleton _ _).trans (h.left.cons _)

end Account

/-- An itinerary that enters and leaves every node of a list. -/
structure Itinerary.Finished (i : Itinerary N Nat) (next : Nat) (ps : List (Addressed N)) :
    Prop where
  ending : i.ending = .ok (next + ps.length)
  account : ∀ left : Addressed N → Bool, (∀ p ∈ ps, left p = true) → Account i.visits next ps left

namespace Walk

variable [Walkable N]

theorem finished_tour_of_children {n : N} {cs : List N} (hcs : Walkable.children n = .ok cs)
    {address : List Nat} (parent : Option (Located N)) {next : Nat}
    (hchildren : (tourAll cs ⟨n, next⟩ (next + 1)).Finished (next + 1) (preorderAll cs address 0)) :
    (tour n parent next).Finished next (preorder n address) := by
  rw [tour_of_ok hcs, preorder_of_ok hcs]
  constructor
  · rw [Itinerary.ending, ending_andThen hchildren.ending, Itinerary.ending, Itinerary.ending,
      List.length_cons, Nat.add_right_comm, Nat.add_assoc]
  · intro left hleft
    rw [List.forall_mem_cons] at hleft
    rw [Itinerary.visits, visits_andThen hchildren.ending]
    exact (hchildren.account left hleft.2).closed parent hleft.1

theorem finished_tourAll {ns : List N} {address : List Nat} {index : Nat}
    (hns : ∀ n ∈ ns, Known n) (parent : Located N) (next : Nat) :
    (tourAll ns parent next).Finished next (preorderAll ns address index) := by
  induction ns using Walkable.forest_induction generalizing address index parent next with
  | nil =>
      rw [tourAll_nil, preorderAll_nil]
      exact ⟨rfl, fun _ _ => .nil⟩
  | cons n rest ihn ihrest =>
      rw [List.forall_mem_cons] at hns
      obtain ⟨cs, hcs⟩ := hns.1 n .refl
      have hn : (tour n (some parent) next).Finished next (preorder n (address ++ [index])) :=
        finished_tour_of_children hcs (some parent)
          (ihn cs hcs (fun c hc => hns.1.of_mem_children hcs hc) ⟨n, next⟩ (next + 1))
      have hrest := @ihrest address (index + 1) hns.2 parent
        (next + (preorder n (address ++ [index])).length)
      rw [tourAll_cons, preorderAll_cons]
      constructor
      · rw [ending_andThen hn.ending, hrest.ending, List.length_append, Nat.add_assoc]
      · intro left hleft
        rw [List.forall_mem_append] at hleft
        rw [visits_andThen hn.ending]
        exact (hn.account left hleft.1).append (hrest.account left hleft.2)

theorem finished_tour {n : N} (hn : Known n) (address : List Nat) (parent : Option (Located N))
    (next : Nat) : (tour n parent next).Finished next (preorder n address) := by
  obtain ⟨cs, hcs⟩ := hn n .refl
  exact finished_tour_of_children hcs parent
    (finished_tourAll (fun c hc => hn.of_mem_children hcs hc) ⟨n, next⟩ (next + 1))

theorem account_itinerary {root : N} (h : Known root) :
    Account (itinerary root).visits 0 (preorder root []) fun _ => true := by
  have hfinished := finished_tour h [] none 0
  rw [itinerary, visits_andThen hfinished.ending, Itinerary.visits, List.append_nil]
  exact hfinished.account _ fun _ _ => rfl

end Walk

/-! ### Itineraries that stop -/

namespace Walk

variable [Walkable N]

/-- In a list of nodes, those of `before` have children, and the node `m` behind
them has none, by the error `e` of the child rule. -/
structure FailsFirst (ps before : List (Addressed N)) (m : Addressed N) (e : WalkError) : Prop where
  eq_append : ∃ after, ps = before ++ m :: after
  before_ok : ∀ p ∈ before, ∃ cs, Walkable.children p.node = .ok cs
  error : Walkable.children m.node = .error e

namespace FailsFirst

variable {ps qs before : List (Addressed N)} {p m : Addressed N} {e : WalkError}

theorem mem (h : FailsFirst ps before m e) : m ∈ ps := by
  obtain ⟨after, rfl⟩ := h.eq_append
  simp

/-- Of two lists in a row the first has the failure, or it has none. -/
theorem of_append (h : FailsFirst (ps ++ qs) before m e) :
    FailsFirst ps before m e ∨
      (∀ p ∈ ps, ∃ cs, Walkable.children p.node = .ok cs) ∧
        ∃ later, before = ps ++ later ∧ FailsFirst qs later m e := by
  obtain ⟨⟨after, hsplit⟩, hbefore, herror⟩ := h
  rcases List.append_eq_append_iff.mp hsplit with ⟨later, rfl, hqs⟩ | ⟨part, hps, hafter⟩
  · rw [List.forall_mem_append] at hbefore
    exact .inr ⟨hbefore.1, later, rfl, ⟨after, hqs⟩, hbefore.2, herror⟩
  · cases part with
    | nil =>
        rw [List.append_nil] at hps
        subst hps
        refine .inr ⟨hbefore, [], (List.append_nil ps).symm, ⟨after, ?_⟩, by simp, herror⟩
        exact hafter.symm
    | cons q part =>
        obtain ⟨rfl, -⟩ := List.cons.inj hafter
        exact .inl ⟨⟨part, hps⟩, hbefore, herror⟩

theorem of_singleton (h : FailsFirst [p] before m e) : before = [] ∧ m = p := by
  obtain ⟨⟨after, hsplit⟩, -, -⟩ := h
  cases before with
  | nil => exact ⟨rfl, (List.cons.inj hsplit).1.symm⟩
  | cons q before => simp at hsplit

theorem of_cons {cs : List N} (hp : Walkable.children p.node = .ok cs)
    (h : FailsFirst (p :: ps) before m e) :
    ∃ later, before = p :: later ∧ FailsFirst ps later m e := by
  rcases (of_append h : FailsFirst [p] before m e ∨ _) with hfirst | ⟨-, later, hbefore, hlater⟩
  · obtain ⟨-, rfl⟩ := hfirst.of_singleton
    have herror := hfirst.error
    rw [hp] at herror
    cases herror
  · exact ⟨later, hbefore, hlater⟩

theorem forall_ok_or_exists (ps : List (Addressed N)) :
    (∀ p ∈ ps, ∃ cs, Walkable.children p.node = .ok cs) ∨
      ∃ before m e, FailsFirst ps before m e := by
  induction ps with
  | nil => simp
  | cons p ps ih =>
      cases hp : Walkable.children p.node with
      | error e => exact .inr ⟨[], p, e, ⟨ps, rfl⟩, by simp, hp⟩
      | ok cs =>
          rcases ih with hok | ⟨before, m, e, ⟨after, rfl⟩, hbefore, herror⟩
          · exact .inl (List.forall_mem_cons.mpr ⟨⟨cs, hp⟩, hok⟩)
          · exact .inr ⟨p :: before, m, e, ⟨after, rfl⟩,
              List.forall_mem_cons.mpr ⟨⟨cs, hp⟩, hbefore⟩, herror⟩

end FailsFirst

theorem known_iff {n : N} {address : List Nat} :
    Known n ↔ ∀ p ∈ preorder n address, ∃ cs, Walkable.children p.node = .ok cs := by
  constructor
  · intro h p hp
    exact h p.node (exists_mem_preorder_iff.mp ⟨p, hp, rfl⟩)
  · intro h m hm
    obtain ⟨p, hp, rfl⟩ := exists_mem_preorder_iff.mpr hm
    exact h p hp

end Walk

open Walk

/-- An itinerary that ends at the node `m` because of an error there: it enters
the nodes before `m` and then `m`, and leaves those that are not on the way to
`m`. -/
structure Itinerary.Stopped (i : Itinerary N Nat) (next : Nat) (before : List (Addressed N))
    (m : Addressed N) (e : WalkError) : Prop where
  ending : i.ending = .error e
  account : Account i.visits next (before ++ [m]) fun p => ¬ p.OnWayTo m
  last : ∃ earlier parent,
    i.visits = earlier ++ [⟨.enter, ⟨m.node, next + before.length⟩, parent⟩]

namespace Walk

variable [Walkable N] {n : N} {address : List Nat} {next : Nat} {before : List (Addressed N)}
  {m : Addressed N} {e : WalkError}

theorem stopped_tour_of_error (hn : Walkable.children n = .error e) (address : List Nat)
    (parent : Option (Located N)) (next : Nat) :
    (tour n parent next).Stopped next [] ⟨n, address⟩ e := by
  have hself : Addressed.OnWayTo ⟨n, address⟩ ⟨n, address⟩ := List.prefix_rfl
  rw [tour_of_error hn]
  refine ⟨rfl, ?_, [], parent, rfl⟩
  exact Account.nil.opened (p := ⟨n, address⟩) parent (decide_eq_false (not_not_intro hself))

theorem stopped_tour_of_children {cs : List N} (hcs : Walkable.children n = .ok cs)
    (parent : Option (Located N)) (hm : Addressed.OnWayTo ⟨n, address⟩ m)
    (hchildren : (tourAll cs ⟨n, next⟩ (next + 1)).Stopped (next + 1) before m e) :
    (tour n parent next).Stopped next (⟨n, address⟩ :: before) m e := by
  obtain ⟨earlier, above, hlast⟩ := hchildren.last
  rw [tour_of_ok hcs]
  constructor
  · rw [Itinerary.ending, ending_andThen_of_error hchildren.ending]
  · rw [Itinerary.visits, visits_andThen_of_error hchildren.ending]
    exact hchildren.account.opened parent (decide_eq_false (not_not_intro hm))
  · refine ⟨⟨.enter, ⟨n, next⟩, parent⟩ :: earlier, above, ?_⟩
    rw [Itinerary.visits, visits_andThen_of_error hchildren.ending, hlast, List.length_cons,
      Nat.add_right_comm, Nat.add_assoc]
    rfl

theorem stopped_tour_of_failsFirst
    (hchildren : ∀ cs, Walkable.children n = .ok cs → ∀ before,
      FailsFirst (preorderAll cs address 0) before m e →
        (tourAll cs ⟨n, next⟩ (next + 1)).Stopped (next + 1) before m e)
    (h : FailsFirst (preorder n address) before m e) (parent : Option (Located N)) :
    (tour n parent next).Stopped next before m e := by
  cases hcs : Walkable.children n with
  | error e' =>
      rw [preorder_of_error hcs] at h
      obtain ⟨rfl, rfl⟩ := h.of_singleton
      have herror := h.error
      rw [hcs] at herror
      cases herror
      exact stopped_tour_of_error hcs address parent next
  | ok cs =>
      rw [preorder_of_ok hcs] at h
      obtain ⟨later, rfl, hlater⟩ := h.of_cons hcs
      obtain ⟨i, -, hi⟩ := exists_index_of_mem_preorderAll hlater.mem
      exact stopped_tour_of_children hcs parent ((List.prefix_append _ _).trans hi)
        (hchildren cs hcs later hlater)

theorem stopped_tourAll {ns : List N} {index : Nat}
    (h : FailsFirst (preorderAll ns address index) before m e) (parent : Located N) (next : Nat) :
    (tourAll ns parent next).Stopped next before m e := by
  induction ns using Walkable.forest_induction generalizing address index before parent next with
  | nil =>
      rw [preorderAll_nil] at h
      exact absurd h.mem List.not_mem_nil
  | cons n rest ihn ihrest =>
      rw [preorderAll_cons] at h
      rw [tourAll_cons]
      rcases h.of_append with hfirst | ⟨hok, later, rfl, hlater⟩
      · -- The failure is below the first tree, and nothing is done with the rest.
        have hn := stopped_tour_of_failsFirst
          (fun cs hcs before hbefore => ihn cs hcs hbefore ⟨n, next⟩ (next + 1)) hfirst
          (some parent)
        constructor
        · rw [ending_andThen_of_error hn.ending]
        · rw [visits_andThen_of_error hn.ending]
          exact hn.account
        · rw [visits_andThen_of_error hn.ending]
          exact hn.last
      · -- The first tree is gone through, and it has no node above the failure.
        have hn := finished_tour (known_iff.mpr hok) (address ++ [index]) (some parent) next
        have hrest := ihrest hlater parent (next + (preorder n (address ++ [index])).length)
        have hleft : ∀ p ∈ preorder n (address ++ [index]), decide (¬ p.OnWayTo m) = true := by
          intro p hp
          exact decide_eq_true (not_onWayTo_of_mem_later hp hlater.mem)
        constructor
        · rw [ending_andThen hn.ending, hrest.ending]
        · rw [visits_andThen hn.ending, List.append_assoc]
          exact (hn.account _ hleft).append hrest.account
        · obtain ⟨earlier, above, hlast⟩ := hrest.last
          refine ⟨(tour n (some parent) next).visits ++ earlier, above, ?_⟩
          rw [visits_andThen hn.ending, hlast, List.append_assoc, List.length_append, Nat.add_assoc]

theorem stopped_tour (h : FailsFirst (preorder n address) before m e)
    (parent : Option (Located N)) (next : Nat) : (tour n parent next).Stopped next before m e :=
  stopped_tour_of_failsFirst (fun _ _ _ hbefore => stopped_tourAll hbefore _ _) h parent

end Walk

end Polish
