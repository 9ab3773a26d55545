import Polish.Proofs.Defects
import Polish.Proofs.Unknown

/-!
Writing and walking go through a node in the same order.

Each has its own rule for the children of a node.  Writing needs every field of
a kind and also writes callees; a walk takes an absent field for an empty one,
goes to the parameters of a call before its arguments, and leaves callees out.
To compare the two, the written nodes are listed with their routes, which are
the fields that lead to them from the root (`routes`).  Without the routes this
is the list that writing goes through (`map_fst_routes`), and what stands in a
callee is told by its route.

If a node can be written and no call that the walk comes to has parameters, the
child rule of the walk gives the written children outside of callees
(`children_of_sound`), and so the nodes that are entered are the written nodes
whose route goes through no callee.
-/

namespace Polish

open Walk

namespace Untyped

/-- The children that are written, in the order of writing, each with the field
that it stands in. -/
def writtenChildren (n : Untyped) : List (Field × Untyped) :=
  match n.kind? with
  | some .program => (n.body.getD []).map (.body, ·)
  | some .expressionStatement => n.expression.toList.map (.expression, ·)
  | some .callExpression =>
    n.callee.toList.map (.callee, ·) ++ (n.arguments.getD []).map (.arguments, ·)
  | _ => []

theorem map_snd_map_pair (f : Field) (ns : List Untyped) : (ns.map (f, ·)).map Prod.snd = ns := by
  rw [List.map_map]
  exact List.map_id ns

theorem map_snd_writtenChildren (n : Untyped) :
    n.writtenChildren.map Prod.snd = n.renderedChildren := by
  unfold writtenChildren renderedChildren
  cases n.kind? with
  | none => rfl
  | some k =>
      cases k with
      | program => exact map_snd_map_pair ..
      | expressionStatement => exact map_snd_map_pair ..
      | callExpression => rw [List.map_append, map_snd_map_pair, map_snd_map_pair]
      | identifier => rfl
      | numberLiteral => rfl
      | stringLiteral => rfl

theorem total_size_writtenChildren_lt (n : Untyped) :
    total (fun c => c.2.size) n.writtenChildren < n.size := by
  rw [← total_map, map_snd_writtenChildren]
  exact total_size_renderedChildren_lt n

mutual

/-- The nodes that are written, in the order of writing, each with the fields on
the way to it.  The root is reached by `route`. -/
def routes (n : Untyped) (route : List Field) : List (Untyped × List Field) :=
  (n, route) :: if n.defect?.isSome then [] else routesAll n.writtenChildren route
termination_by 2 * n.size
decreasing_by
  have := total_size_writtenChildren_lt n
  omega

def routesAll (cs : List (Field × Untyped)) (route : List Field) : List (Untyped × List Field) :=
  match cs with
  | [] => []
  | (field, n) :: rest => routes n (route ++ [field]) ++ routesAll rest route
termination_by 2 * total (fun c => c.2.size) cs + 1
decreasing_by
  · simp only [total_cons]
    omega
  · have := size_pos n
    simp only [total_cons]
    omega

end

@[elab_as_elim] theorem written_induction {motive : List (Field × Untyped) → Prop}
    (nil : motive [])
    (cons : ∀ field n rest, motive n.writtenChildren → motive rest → motive ((field, n) :: rest))
    (cs : List (Field × Untyped)) : motive cs :=
  match cs with
  | [] => nil
  | (field, n) :: rest =>
      cons field n rest (written_induction nil cons n.writtenChildren)
        (written_induction nil cons rest)
termination_by total (fun c => c.2.size) cs
decreasing_by
  · have := total_size_writtenChildren_lt n
    simp only [total_cons]
    omega
  · have := size_pos n
    simp only [total_cons]
    omega

theorem routes_of_defect {n : Untyped} {e : RenderError} (h : n.defect? = some e)
    (route : List Field) : n.routes route = [(n, route)] := by
  rw [routes, h]
  rfl

theorem routes_of_no_defect {n : Untyped} (h : n.defect? = none) (route : List Field) :
    n.routes route = (n, route) :: routesAll n.writtenChildren route := by
  rw [routes, h]
  rfl

theorem routesAll_nil (route : List Field) : routesAll [] route = [] := by
  rw [routesAll]

theorem routesAll_cons (field : Field) (n : Untyped) (rest : List (Field × Untyped))
    (route : List Field) :
    routesAll ((field, n) :: rest) route = n.routes (route ++ [field]) ++ routesAll rest route := by
  rw [routesAll]

theorem map_fst_routes_of_children {n : Untyped} {route : List Field}
    (hchildren : (routesAll n.writtenChildren route).map Prod.fst =
      renderedNodesAll (n.writtenChildren.map Prod.snd)) :
    (n.routes route).map Prod.fst = n.renderedNodes := by
  cases hdefect : n.defect? with
  | some e =>
      rw [routes_of_defect hdefect, renderedNodes_of_defect hdefect]
      rfl
  | none =>
      rw [routes_of_no_defect hdefect, renderedNodes_of_no_defect hdefect, List.map_cons, hchildren,
        map_snd_writtenChildren]

theorem map_fst_routesAll (cs : List (Field × Untyped)) (route : List Field) :
    (routesAll cs route).map Prod.fst = renderedNodesAll (cs.map Prod.snd) := by
  induction cs using written_induction generalizing route with
  | nil =>
      rw [routesAll_nil, List.map_nil, List.map_nil, renderedNodesAll]
  | cons field n rest ihn ihrest =>
      rw [routesAll_cons, List.map_append, map_fst_routes_of_children (ihn _), ihrest,
        List.map_cons, renderedNodesAll]

theorem map_fst_routes (n : Untyped) (route : List Field) :
    (n.routes route).map Prod.fst = n.renderedNodes :=
  map_fst_routes_of_children (map_fst_routesAll _ _)

theorem sound_of_render {n : Untyped} {out : String} (h : n.render = .ok out)
    (route : List Field) : ∀ q ∈ n.routes route, q.1.defect? = none := by
  rw [render_eq_unlessDefect, unlessDefect_eq_ok_iff, ← map_fst_routes n route] at h
  exact fun q hq => h.1 q.1 (List.mem_map_of_mem hq)

/-- Whether the way to a node goes through no callee. -/
def outsideCallees (q : Untyped × List Field) : Bool :=
  .callee ∉ q.2

theorem mem_route_of_children {n : Untyped} {route : List Field} {f : Field}
    (hchildren : ∀ q ∈ routesAll n.writtenChildren route, f ∈ q.2) (hf : f ∈ route) :
    ∀ q ∈ n.routes route, f ∈ q.2 := by
  cases hdefect : n.defect? with
  | some e =>
      rw [routes_of_defect hdefect, List.forall_mem_singleton]
      exact hf
  | none =>
      rw [routes_of_no_defect hdefect, List.forall_mem_cons]
      exact ⟨hf, hchildren⟩

theorem mem_route_of_mem_routesAll {f : Field} {route : List Field} (hf : f ∈ route)
    (cs : List (Field × Untyped)) : ∀ q ∈ routesAll cs route, f ∈ q.2 := by
  induction cs using written_induction generalizing route with
  | nil => simp [routesAll_nil]
  | cons field n rest ihn ihrest =>
      have hlonger : f ∈ route ++ [field] := List.mem_append_left _ hf
      rw [routesAll_cons, List.forall_mem_append]
      exact ⟨mem_route_of_children (ihn hlonger) hlonger, ihrest hf⟩

theorem filter_routes_of_callee (n : Untyped) (route : List Field) :
    (n.routes (route ++ [.callee])).filter outsideCallees = [] := by
  have hcallee : .callee ∈ route ++ [Field.callee] := by simp
  rw [List.filter_eq_nil_iff]
  intro q hq
  have hmem := mem_route_of_children (mem_route_of_mem_routesAll hcallee _) hcallee q hq
  simp [outsideCallees, hmem]

/-! ### The child rule of a walk -/

/-- A call has no parameters, so that a walk goes to its arguments. -/
def ParamsAbsent (n : Untyped) : Prop :=
  n.kind? = some .callExpression → n.params = none

theorem children_of_sound {n : Untyped} (hdefect : n.defect? = none) (hparams : n.ParamsAbsent) :
    Walkable.children n =
      .ok ((n.writtenChildren.filter (·.1 ≠ .callee)).map Prod.snd) := by
  -- Each kind has one field that is walked, and a call has its callee written besides.
  have hkeep (f : Field) (hf : f ≠ .callee) (ns : List Untyped) :
      ((ns.map (f, ·)).filter (·.1 ≠ .callee)).map Prod.snd = ns := by
    rw [List.filter_eq_self.mpr, map_snd_map_pair]
    simp [hf]
  have hdrop (ns : List Untyped) : (ns.map (Field.callee, ·)).filter (·.1 ≠ .callee) = [] := by
    simp
  rw [walkable_children, children]
  cases hkind : n.kind? with
  | none =>
      rw [defect?, hkind] at hdefect
      cases hdefect
  | some k =>
      unfold writtenChildren
      rw [hkind]
      cases k with
      | program => rw [hkeep _ (by decide)]
      | expressionStatement => rw [hkeep _ (by decide)]
      | callExpression =>
          rw [List.filter_append, hdrop, List.nil_append, hkeep _ (by decide), hparams hkind]
          rfl
      | identifier => rfl
      | numberLiteral => rfl
      | stringLiteral => rfl

theorem map_node_preorder_of_children {n : Untyped} {route : List Field} {address : List Nat}
    (hroute : .callee ∉ route) (hsound : ∀ q ∈ n.routes route, q.1.defect? = none)
    (hparams : ∀ m, Reached m n → m.ParamsAbsent)
    (hchildren : (∀ q ∈ routesAll n.writtenChildren route, q.1.defect? = none) →
      (∀ c ∈ n.writtenChildren, c.1 ≠ .callee → ∀ m, Reached m c.2 → m.ParamsAbsent) →
      (preorderAll ((n.writtenChildren.filter (·.1 ≠ .callee)).map Prod.snd) address 0).map
          (·.node) =
        ((routesAll n.writtenChildren route).filter outsideCallees).map Prod.fst) :
    (preorder n address).map (·.node) = ((n.routes route).filter outsideCallees).map Prod.fst := by
  have hdefect : n.defect? = none := by
    rw [routes] at hsound
    exact (List.forall_mem_cons.mp hsound).1
  rw [routes_of_no_defect hdefect, List.forall_mem_cons] at hsound
  have hcs := children_of_sound hdefect (hparams n .refl)
  have hbelow : ∀ c ∈ n.writtenChildren, c.1 ≠ .callee → ∀ m, Reached m c.2 → m.ParamsAbsent := by
    intro c hc hfield m hm
    refine hparams m (.child hcs (List.mem_map_of_mem ?_) hm)
    exact List.mem_filter.mpr ⟨hc, decide_eq_true hfield⟩
  have houtside : outsideCallees (n, route) = true := decide_eq_true hroute
  rw [preorder_of_ok hcs, routes_of_no_defect hdefect, List.map_cons,
    hchildren hsound.2 hbelow, List.filter_cons_of_pos houtside, List.map_cons]

theorem map_node_preorderAll {cs : List (Field × Untyped)} {route : List Field}
    (hroute : .callee ∉ route) (hsound : ∀ q ∈ routesAll cs route, q.1.defect? = none)
    (hparams : ∀ c ∈ cs, c.1 ≠ .callee → ∀ m, Reached m c.2 → m.ParamsAbsent)
    (address : List Nat) (index : Nat) :
    (preorderAll ((cs.filter (·.1 ≠ .callee)).map Prod.snd) address index).map (·.node) =
      ((routesAll cs route).filter outsideCallees).map Prod.fst := by
  induction cs using written_induction generalizing route address index with
  | nil =>
      rw [routesAll_nil, List.filter_nil, List.map_nil, preorderAll_nil]
      rfl
  | cons field n rest ihn ihrest =>
      rw [routesAll_cons, List.forall_mem_append] at hsound
      rw [List.forall_mem_cons] at hparams
      rw [routesAll_cons, List.filter_append, List.map_append]
      by_cases hfield : field = .callee
      · -- Neither of the two looks for anything in a callee.
        subst hfield
        rw [filter_routes_of_callee, List.map_nil, List.nil_append,
          List.filter_cons_of_neg (by simp)]
        exact ihrest hroute hsound.2 hparams.2 address index
      · have hlonger : .callee ∉ route ++ [field] := by
          simpa [hroute] using Ne.symm hfield
        have hn : (preorder n (address ++ [index])).map (·.node) =
            ((n.routes (route ++ [field])).filter outsideCallees).map Prod.fst :=
          map_node_preorder_of_children hlonger hsound.1 (hparams.1 hfield)
            fun hsound hparams => ihn hlonger hsound hparams _ _
        rw [List.filter_cons_of_pos (by simpa using hfield), List.map_cons, preorderAll_cons,
          List.map_append, hn, ihrest hroute hsound.2 hparams.2]

theorem map_node_preorder {n : Untyped} (hsound : ∀ q ∈ n.routes [], q.1.defect? = none)
    (hparams : ∀ m, Reached m n → m.ParamsAbsent) :
    (preorder n []).map (·.node) = ((n.routes []).filter outsideCallees).map Prod.fst :=
  map_node_preorder_of_children List.not_mem_nil hsound hparams
    fun hsound hparams => map_node_preorderAll List.not_mem_nil hsound hparams _ _

theorem known_of_sound {n : Untyped} (hsound : ∀ q ∈ n.routes [], q.1.defect? = none)
    (hparams : ∀ m, Reached m n → m.ParamsAbsent) : Known n := by
  rw [known_iff]
  intro p hp
  have hwritten : p.node ∈ ((n.routes []).filter outsideCallees).map Prod.fst := by
    rw [← map_node_preorder hsound hparams]
    exact List.mem_map_of_mem hp
  obtain ⟨q, hq, hnode⟩ := List.mem_map.mp hwritten
  have hdefect : p.node.defect? = none := by
    rw [← hnode]
    exact hsound q (List.mem_of_mem_filter hq)
  exact ⟨_, children_of_sound hdefect (hparams _ (exists_mem_preorder_iff.mp ⟨p, hp, rfl⟩))⟩

end Untyped

open Untyped

/-- A node that can be written can be walked, unless a call on the way has
parameters.  The nodes that are entered are those that are written, in the order
of writing, without the callees and all that is written below a callee. -/
theorem walk_in_order_of_writing {n : Untyped} {out : String} (h : n.render = .ok out)
    (hparams : ∀ m, Reached m n → m.kind? = some .callExpression → m.params = none) :
    ∃ visits log,
      walk Visitor.listing n #[] = (.ok (), visits) ∧
      EventLog.ofTree n = (.ok (), log) ∧
      (n.routes []).map Prod.fst = n.renderedNodes ∧
      (visits.toList.filter (·.phase = .enter)).map (·.here.node) =
        ((n.routes []).filter outsideCallees).map Prod.fst ∧
      log.events.toList.filter (·.phase = .enter) =
        (((n.routes []).filter outsideCallees).map Prod.fst).zipIdx.map fun p =>
          ⟨p.2, p.1.type, .enter⟩ := by
  have hsound := sound_of_render h []
  have hknown := known_of_sound hsound hparams
  have hwritten := map_node_preorder hsound hparams
  have haccount := account_itinerary hknown
  have hending : (EventLog.ofTree n).1 = .ok () := ending_ofTree_eq_ok_iff.mpr hknown
  refine ⟨(itinerary n).visits.toArray, (EventLog.ofTree n).2, ?_, ?_, map_fst_routes n [], ?_, ?_⟩
  · rw [walk_listing, ← ending_ofTree, hending]
  · exact Prod.ext hending rfl
  · rw [haccount.map_node_entered, hwritten]
  · rw [events_ofTree, haccount.filter_enter_events, ← hwritten, List.zipIdx_map, List.map_map]
    rfl

/-- A call whose callee is a call.  The callee has parameters, and the walk does
not come there. -/
def calledTwice : Untyped where
  type := "CallExpression"
  callee := some {
    type := "CallExpression", params := some [],
    callee := some { type := "Identifier", name := some "f" },
    arguments := some [{ type := "NumberLiteral", value := some "1" }] }
  arguments := some [{ type := "StringLiteral", value := some "x" }]

theorem walk_in_order_of_writing_calledTwice :
    calledTwice.render = .ok "f(1)(\"x\")" ∧
      (∀ m, Reached m calledTwice → m.kind? = some .callExpression → m.params = none) ∧
      ∃ visits log,
        walk Visitor.listing calledTwice #[] = (.ok (), visits) ∧
        EventLog.ofTree calledTwice = (.ok (), log) ∧
        (calledTwice.routes []).map Prod.fst = calledTwice.renderedNodes ∧
        (visits.toList.filter (·.phase = .enter)).map (·.here.node) =
          ((calledTwice.routes []).filter outsideCallees).map Prod.fst ∧
        log.events.toList.filter (·.phase = .enter) =
          (((calledTwice.routes []).filter outsideCallees).map Prod.fst).zipIdx.map fun p =>
            ⟨p.2, p.1.type, .enter⟩ := by
  have hrender : calledTwice.render = .ok "f(1)(\"x\")" := by decide +kernel
  have hparams : ∀ m, Reached m calledTwice → m.kind? = some .callExpression →
      m.params = none := by
    intro m hm hcall
    cases hm with
    | refl => rfl
    | @child n c cs hcs hc h =>
        cases hcs
        obtain rfl := List.mem_singleton.mp hc
        cases h with
        | refl => cases hcall
        | child hcs hc => cases hcs; cases hc
  exact ⟨hrender, hparams, walk_in_order_of_writing hrender hparams⟩

end Polish
