import Polish.Proofs.Itinerary
import Polish.Proofs.Lowering

/-!
Lowering can be undone, and what it reaches can be told by looking.

`toSource` takes statements off and turns identifiers back into names.  It undoes
lowering on every source tree, so no two of them have one target.  A target tree
is reached exactly if it is well shaped, which is said of its body and of the
arguments of its calls alone; such a tree is the target of what it is raised to.
-/

namespace Polish

open Source Vocabulary

namespace Target

mutual

/-- The source tree that a target tree comes from, if it comes from any. -/
def toSource : Target → Source
  | .program body => .program (toSourceList body)
  | .statement expression => expression.toSource
  | .call callee arguments => .call callee.name (toSourceList arguments)
  | .identifier name => .call name []
  | .number value => .number value
  | .string value => .string value

def toSourceList : List Target → List Source
  | [] => []
  | t :: ts => t.toSource :: toSourceList ts

end

theorem toSourceList_eq_map (ts : List Target) : toSourceList ts = ts.map toSource := by
  induction ts with
  | nil => rfl
  | cons t ts ih => rw [toSourceList, ih, List.map_cons]

def IsArgument (t : Target) : Prop :=
  t.kind.IsLiteral ∨ t.kind = .callExpression

def IsItem (t : Target) : Prop :=
  t.kind.IsLiteral ∨ ∃ callee arguments, t = .statement (.call callee arguments)

def ArgumentsShaped : Target → Prop
  | .call _ arguments => ∀ a ∈ arguments, a.IsArgument
  | _ => True

/-- A program of literals and of statements that are calls, in which the
arguments of every call are literals and calls. -/
def WellShaped (u : Target) : Prop :=
  ∃ body, u = .program body ∧ (∀ t ∈ body, t.IsItem) ∧ ∀ n ∈ nodes u, n.ArgumentsShaped

theorem toSourceList_argumentList (ts : List Source) : toSourceList (argumentList ts) = ts := by
  induction ts using forest_induction with
  | nil => rfl
  | program body rest ihbody ihrest =>
      rw [argumentList, argument, toSourceList, toSource, ihbody, ihrest]
  | number value rest ih =>
      rw [argumentList, argument, toSourceList, toSource, ih]
  | string value rest ih =>
      rw [argumentList, argument, toSourceList, toSource, ih]
  | call name params rest ihparams ihrest =>
      rw [argumentList, argument, toSourceList, toSource, ihparams, ihrest]

theorem toSource_argument (t : Source) : t.argument.toSource = t := by
  have h : [t.argument.toSource] = [t] := toSourceList_argumentList [t]
  exact List.singleton_inj.mp h

theorem toSource_item (t : Source) : t.item.toSource = t := by
  cases t with
  | call name params => exact toSource_argument (.call name params)
  | _ => exact toSource_argument _

theorem toSource_of_lower {t : Source} {u : Target} (h : lower t = .ok u) : u.toSource = t := by
  obtain ⟨body, rfl, -, rfl⟩ := lower_eq_ok_iff.mp h
  rw [toSource, toSourceList_eq_map, List.map_map]
  simp [Function.comp_def, toSource_item]

theorem isItem_item {t : Source} (ht : t.programFree = true) : t.item.IsItem := by
  cases t with
  | program body => cases ht
  | number value => exact .inl (.inl rfl)
  | string value => exact .inl (.inr rfl)
  | call name params => exact .inr ⟨_, _, rfl⟩

theorem argumentsShaped_argumentList {ts : List Source} (hfree : programFreeList ts = true) :
    ∀ t ∈ argumentList ts, t.IsArgument ∧ ∀ n ∈ nodes t, n.ArgumentsShaped := by
  induction ts using forest_induction with
  | nil => simp [argumentList]
  | program body rest => simp [programFreeList, programFree] at hfree
  | number value rest ih =>
      rw [argumentList, List.forall_mem_cons, forall_mem_nodes_iff]
      simp only [programFreeList, programFree, Bool.true_and] at hfree
      refine ⟨⟨.inl (.inl rfl), trivial, ?_⟩, ih hfree⟩
      exact List.forall_mem_nil _
  | string value rest ih =>
      rw [argumentList, List.forall_mem_cons, forall_mem_nodes_iff]
      simp only [programFreeList, programFree, Bool.true_and] at hfree
      refine ⟨⟨.inl (.inr rfl), trivial, ?_⟩, ih hfree⟩
      exact List.forall_mem_nil _
  | call name params rest ihparams ihrest =>
      rw [argumentList, List.forall_mem_cons, forall_mem_nodes_iff]
      simp only [programFreeList, programFree, Bool.and_eq_true] at hfree
      have hparams := ihparams hfree.1
      refine ⟨⟨.inr rfl, ?_, ?_⟩, ihrest hfree.2⟩
      · exact fun a ha => (hparams a ha).1
      · exact fun c hc => (hparams c hc).2

theorem shaped_item {t : Source} (ht : t.programFree = true) :
    t.item.IsItem ∧ ∀ n ∈ nodes t.item, n.ArgumentsShaped := by
  refine ⟨isItem_item ht, ?_⟩
  have hlist : programFreeList [t] = true := by simp [programFreeList, ht]
  have hshaped : ∀ n ∈ nodes t.argument, n.ArgumentsShaped :=
    (argumentsShaped_argumentList hlist t.argument List.mem_cons_self).2
  cases t with
  | call name params =>
      rw [item, forall_mem_nodes_iff]
      exact ⟨trivial, List.forall_mem_singleton.mpr hshaped⟩
  | _ => exact hshaped

theorem wellShaped_of_lower {t : Source} {u : Target} (h : lower t = .ok u) : u.WellShaped := by
  obtain ⟨body, rfl, hfree, rfl⟩ := lower_eq_ok_iff.mp h
  have hitems : ∀ i ∈ body.map item, i.IsItem ∧ ∀ n ∈ nodes i, n.ArgumentsShaped := by
    rw [programFreeList_eq_all, List.all_eq_true] at hfree
    rw [List.forall_mem_map]
    exact fun t ht => shaped_item (hfree t ht)
  refine ⟨_, rfl, fun i hi => (hitems i hi).1, forall_mem_nodes_iff.mpr ⟨trivial, ?_⟩⟩
  exact fun i hi => (hitems i hi).2

theorem argumentList_toSourceList {ts : List Target}
    (h : ∀ t ∈ ts, t.IsArgument ∧ ∀ n ∈ nodes t, n.ArgumentsShaped) :
    programFreeList (toSourceList ts) = true ∧ argumentList (toSourceList ts) = ts := by
  induction ts using Walkable.forest_induction with
  | nil => exact ⟨rfl, rfl⟩
  | cons t rest iht ihrest =>
      rw [List.forall_mem_cons] at h
      obtain ⟨⟨hargument, hnodes⟩, hrest⟩ := h
      obtain ⟨hfree, heq⟩ := ihrest hrest
      rw [forall_mem_nodes_iff] at hnodes
      cases t with
      | call callee arguments =>
          have hbelow := iht arguments rfl fun a ha => ⟨hnodes.1 a ha, hnodes.2 a ha⟩
          simp [toSourceList, toSource, programFreeList, programFree, argumentList, argument,
            hbelow, hfree, heq]
      | number value =>
          simp [toSourceList, toSource, programFreeList, programFree, argumentList, argument,
            hfree, heq]
      | string value =>
          simp [toSourceList, toSource, programFreeList, programFree, argumentList, argument,
            hfree, heq]
      | _ => simp [IsArgument, Kind.IsLiteral, kind] at hargument

theorem item_toSource {t : Target} (h : t.IsItem) (hnodes : ∀ n ∈ nodes t, n.ArgumentsShaped) :
    t.toSource.programFree = true ∧ t.toSource.item = t := by
  rcases h with hliteral | ⟨callee, arguments, rfl⟩
  · obtain ⟨value, rfl⟩ | ⟨value, rfl⟩ := eq_of_isLiteral hliteral <;> exact ⟨rfl, rfl⟩
  · rw [forall_mem_nodes_iff] at hnodes
    have hcall : ∀ n ∈ nodes (Target.call callee arguments), n.ArgumentsShaped :=
      hnodes.2 _ List.mem_cons_self
    rw [forall_mem_nodes_iff] at hcall
    obtain ⟨hfree, heq⟩ :=
      argumentList_toSourceList fun a ha => ⟨hcall.1 a ha, hcall.2 a ha⟩
    exact ⟨hfree, by rw [toSource, toSource, item, argument, heq]⟩

theorem lower_toSource {u : Target} (h : u.WellShaped) : lower u.toSource = .ok u := by
  obtain ⟨body, rfl, hitems, hnodes⟩ := h
  rw [forall_mem_nodes_iff] at hnodes
  have hbody : ∀ t ∈ body, t.toSource.programFree = true ∧ t.toSource.item = t :=
    fun t ht => item_toSource (hitems t ht) (hnodes.2 t ht)
  refine lower_eq_ok_iff.mpr ⟨toSourceList body, rfl, ?_, ?_⟩
  · rw [toSourceList_eq_map, programFreeList_eq_all, List.all_map, List.all_eq_true]
    exact fun t ht => (hbody t ht).1
  · rw [toSourceList_eq_map, List.map_map]
    have hmap : body.map (item ∘ toSource) = body.map id :=
      List.map_congr_left fun t ht => (hbody t ht).2
    rw [hmap, List.map_id]

theorem isArgument_of_mem_nodes {ts : List Target}
    (h : ∀ t ∈ ts, t.IsArgument ∧ ∀ n ∈ nodes t, n.ArgumentsShaped) :
    ∀ t ∈ ts, ∀ n ∈ nodes t, n.IsArgument := by
  induction ts using Walkable.forest_induction with
  | nil => exact List.forall_mem_nil _
  | cons t rest iht ihrest =>
      rw [List.forall_mem_cons] at h ⊢
      obtain ⟨⟨hargument, hnodes⟩, hrest⟩ := h
      refine ⟨?_, ihrest hrest⟩
      rw [forall_mem_nodes_iff] at hnodes ⊢
      refine ⟨hargument, ?_⟩
      cases t with
      | call callee arguments =>
          exact iht arguments rfl fun a ha => ⟨hnodes.1 a ha, hnodes.2 a ha⟩
      | number value => exact List.forall_mem_nil _
      | string value => exact List.forall_mem_nil _
      | _ => simp [IsArgument, Kind.IsLiteral, kind] at hargument

theorem WellShaped.node_cases {u n : Target} (h : u.WellShaped) (hn : n ∈ nodes u) :
    n = u ∨ n ∈ u.children ∧ n.IsItem ∨ n.IsArgument := by
  obtain ⟨body, rfl, hitems, hnodes⟩ := h
  rw [forall_mem_nodes_iff] at hnodes
  rw [nodes_eq, List.mem_cons, List.mem_flatMap] at hn
  rcases hn with rfl | ⟨t, ht, hn⟩
  · exact .inl rfl
  right
  rw [nodes_eq, List.mem_cons, List.mem_flatMap] at hn
  rcases hn with rfl | ⟨c, hc, hn⟩
  · exact .inl ⟨ht, hitems _ ht⟩
  right
  rcases hitems t ht with hliteral | ⟨callee, arguments, rfl⟩
  · obtain ⟨value, rfl⟩ | ⟨value, rfl⟩ := eq_of_isLiteral hliteral <;> cases hc
  · have hshaped := (forall_mem_nodes_iff.mp (hnodes.2 _ ht)).2 c hc
    obtain rfl : c = .call callee arguments := List.mem_singleton.mp hc
    have hcall : ∀ a ∈ [call callee arguments], a.IsArgument ∧ ∀ m ∈ nodes a, m.ArgumentsShaped :=
      List.forall_mem_singleton.mpr ⟨.inr rfl, hshaped⟩
    exact isArgument_of_mem_nodes hcall _ List.mem_cons_self n hn

theorem IsItem.kind_cases {t : Target} (h : t.IsItem) :
    t.kind.IsLiteral ∨ t.kind = .expressionStatement := by
  rcases h with h | ⟨callee, arguments, rfl⟩
  · exact .inl h
  · exact .inr rfl

theorem WellShaped.kind_of_mem_children {u t : Target} (h : u.WellShaped) (ht : t ∈ u.children) :
    t.kind ≠ .callExpression := by
  obtain ⟨body, rfl, hitems, -⟩ := h
  rcases (hitems t ht).kind_cases with (hkind | hkind) | hkind <;> simp [hkind]

theorem WellShaped.kind_of_mem_nodes {u n : Target} (h : u.WellShaped) (hn : n ∈ nodes u) :
    n.kind ≠ .identifier ∧ (n.kind = .program → n = u) ∧
      (n.kind = .expressionStatement → n ∈ u.children) := by
  rcases h.node_cases hn with rfl | ⟨hmem, hitem⟩ | hargument
  · obtain ⟨body, rfl, -⟩ := h
    simp [kind]
  · rcases hitem.kind_cases with (hkind | hkind) | hkind <;> simp [hkind, hmem]
  · rcases hargument with (hkind | hkind) | hkind <;> simp [hkind]

end Target

open Target

/-- Lowering is one to one, and the trees it reaches are the well-shaped ones:
in these no call stands in the body by itself, there are no identifiers, no
program but the root, and no statements but in the body. -/
theorem lower_onto_wellShaped :
    (∀ t₁ t₂ u, lower t₁ = .ok u → lower t₂ = .ok u → t₁ = t₂) ∧
    (∀ u, (∃ t, lower t = .ok u) ↔ u.WellShaped) ∧
    ∀ u : Target, u.WellShaped → (∀ t ∈ u.children, t.kind ≠ .callExpression) ∧
      ∀ n ∈ nodes u, n.kind ≠ .identifier ∧ (n.kind = .program → n = u) ∧
        (n.kind = .expressionStatement → n ∈ u.children) := by
  refine ⟨?_, ?_, ?_⟩
  · intro t₁ t₂ u h₁ h₂
    rw [← toSource_of_lower h₁, toSource_of_lower h₂]
  · intro u
    exact ⟨fun ⟨t, ht⟩ => wellShaped_of_lower ht, fun hu => ⟨u.toSource, lower_toSource hu⟩⟩
  · intro u hu
    exact ⟨fun t ht => hu.kind_of_mem_children ht, fun n hn => hu.kind_of_mem_nodes hn⟩

/-- A well-shaped tree: a literal, and a statement with a call inside a call. -/
def nestedStatement : Target :=
  .program [.string "x", .statement (.call ⟨"f"⟩ [.number "1", .call ⟨"g"⟩ []])]

theorem lower_onto_wellShaped_nestedStatement :
    lower nestedStatement.toSource = .ok nestedStatement ∧ nestedStatement.WellShaped ∧
      nestedStatement.toSource =
        .program [.string "x", .call "f" [.number "1", .call "g" []]] ∧
      ∀ n ∈ nodes nestedStatement, n.kind ≠ .identifier := by
  have hraised : lower nestedStatement.toSource = .ok nestedStatement :=
    lower_eq_ok_iff.mpr ⟨_, rfl, rfl, rfl⟩
  have hlowered : lower (.program [.string "x", .call "f" [.number "1", .call "g" []]]) =
      .ok nestedStatement := lower_eq_ok_iff.mpr ⟨_, rfl, rfl, rfl⟩
  have hshaped : nestedStatement.WellShaped :=
    (lower_onto_wellShaped.2.1 nestedStatement).mp ⟨_, hraised⟩
  refine ⟨hraised, hshaped, lower_onto_wellShaped.1 _ _ _ hraised hlowered, fun n hn => ?_⟩
  exact ((lower_onto_wellShaped.2.2 _ hshaped).2 n hn).1

end Polish
