import Polish.Source
import Polish.Target

/-!
Forests.  A source tree keeps the trees below a node in a list, and what is
true of trees is mostly proved about such lists: the tree in front and what
stands behind it are then treated alike, and no second statement about single
trees is needed.  `forest_induction` is the induction for this.

The second part says where programs stand in a tree.  `Below` is the relation
of a node to the nodes above it, and `programFree` is the same question asked
by recursion.  The last part lists the nodes of a tree, of any vocabulary.
-/

namespace Polish

namespace Source

@[elab_as_elim] theorem forest_induction {motive : List Source → Prop} (nil : motive [])
    (program : ∀ body rest, motive body → motive rest → motive (.program body :: rest))
    (number : ∀ value rest, motive rest → motive (.number value :: rest))
    (string : ∀ value rest, motive rest → motive (.string value :: rest))
    (call : ∀ name params rest, motive params → motive rest →
      motive (.call name params :: rest)) (forest : List Source) : motive forest :=
  match forest with
  | [] => nil
  | .program body :: rest =>
      program body rest (forest_induction nil program number string call body)
        (forest_induction nil program number string call rest)
  | .number value :: rest =>
      number value rest (forest_induction nil program number string call rest)
  | .string value :: rest =>
      string value rest (forest_induction nil program number string call rest)
  | .call name params :: rest =>
      call name params rest (forest_induction nil program number string call params)
        (forest_induction nil program number string call rest)
termination_by sizeOf forest

/-- The tree `d` stands strictly below `t`. -/
inductive Below (d : Source) : Source → Prop
  | child {t : Source} (h : d ∈ t.children) : Below d t
  | deeper {c t : Source} (hc : c ∈ t.children) (h : Below d c) : Below d t

mutual

/-- Whether no node of a tree, its root included, is a program. -/
def programFree : Source → Bool
  | .program _ => false
  | .number _ => true
  | .string _ => true
  | .call _ params => programFreeList params

def programFreeList : List Source → Bool
  | [] => true
  | t :: ts => t.programFree && programFreeList ts

end

theorem programFreeList_eq_all (ts : List Source) : programFreeList ts = ts.all programFree := by
  induction ts with
  | nil => rfl
  | cons t ts ih => rw [programFreeList, ih, List.all_cons]

theorem forall_below_iff {t : Source} {P : Source → Prop} :
    (∀ d, Below d t → P d) ↔ ∀ c ∈ t.children, P c ∧ ∀ d, Below d c → P d := by
  constructor
  · intro h c hc
    exact ⟨h c (.child hc), fun d hd => h d (.deeper hc hd)⟩
  · rintro h d (hd | ⟨hc, hd⟩)
    · exact (h d hd).1
    · exact (h _ hc).2 d hd

/-- A forest is free of programs if none of its trees is one or has one below it. -/
theorem programFreeList_iff (ts : List Source) :
    programFreeList ts = true ↔
      ∀ t ∈ ts, t.kind ≠ .program ∧ ∀ d, Below d t → d.kind ≠ .program := by
  induction ts using forest_induction with
  | nil => simp [programFreeList]
  | program body rest _ _ => simp [programFreeList, programFree, kind]
  | number value rest ih =>
      rw [List.forall_mem_cons, ← ih, forall_below_iff]
      simp [programFreeList, programFree, kind, children]
  | string value rest ih =>
      rw [List.forall_mem_cons, ← ih, forall_below_iff]
      simp [programFreeList, programFree, kind, children]
  | call name params rest ihparams ihrest =>
      rw [List.forall_mem_cons, ← ihrest, forall_below_iff]
      simp only [children]
      rw [← ihparams]
      simp [programFreeList, programFree, kind]

theorem programFreeList_children_iff (t : Source) :
    programFreeList t.children = true ↔ ∀ d, Below d t → d.kind ≠ .program := by
  rw [programFreeList_iff, forall_below_iff]

end Source

/-- Literals are the nodes that stand for a value. -/
def Kind.IsLiteral (k : Kind) : Prop :=
  k = .numberLiteral ∨ k = .stringLiteral

theorem Target.eq_of_isLiteral {t : Target} (h : t.kind.IsLiteral) :
    (∃ value, t = .number value) ∨ ∃ value, t = .string value := by
  cases t with
  | number value => exact .inl ⟨value, rfl⟩
  | string value => exact .inr ⟨value, rfl⟩
  | _ => simp [Kind.IsLiteral, kind] at h

namespace Vocabulary

variable {N : Type} [Vocabulary N]

/-- The nodes of a tree, each before those below it and the children in their
order. -/
def nodes (n : N) : List N :=
  n :: (children n).flatMap nodes
termination_by size n
decreasing_by
  have hle := le_total_of_mem (f := size) ‹_›
  rw [size_eq n]
  omega

theorem nodes_eq (n : N) : nodes n = n :: (children n).flatMap nodes := by
  rw [nodes]

theorem forall_mem_nodes_iff {n : N} {P : N → Prop} :
    (∀ m ∈ nodes n, P m) ↔ P n ∧ ∀ c ∈ children n, ∀ m ∈ nodes c, P m := by
  rw [nodes_eq, List.forall_mem_cons]
  simp only [List.mem_flatMap]
  constructor
  · rintro ⟨hn, hbelow⟩
    exact ⟨hn, fun c hc m hm => hbelow m ⟨c, hc, hm⟩⟩
  · rintro ⟨hn, hbelow⟩
    exact ⟨hn, fun m ⟨c, hc, hm⟩ => hbelow c hc m hm⟩

end Vocabulary

namespace Source

def calls (t : Source) : List Source :=
  (Vocabulary.nodes t).filter (·.kind = .callExpression)

theorem calls_eq (t : Source) :
    t.calls = [t].filter (·.kind = .callExpression) ++ t.children.flatMap calls := by
  rw [calls, Vocabulary.nodes_eq, ← List.singleton_append, List.filter_append, List.filter_flatMap]
  rfl

theorem calls_program (body : List Source) : (program body).calls = body.flatMap calls :=
  calls_eq _

theorem calls_number (value : String) : (number value).calls = [] :=
  calls_eq _

theorem calls_string (value : String) : (string value).calls = [] :=
  calls_eq _

theorem calls_call (name : String) (params : List Source) :
    (call name params).calls = call name params :: params.flatMap calls :=
  calls_eq _

end Source

end Polish
