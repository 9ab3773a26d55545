import Mathlib.Data.List.Forall2
import Polish.Proofs.Outline
import Polish.Proofs.Rendering
import Polish.Proofs.RoundTrip
import Polish.Untyped.Walk

/-!
Typed trees and untyped nodes that are walked alike.

A walk sees the name of each kind and the children that the child rule gives.
A relation under which related nodes have one name and related children is
therefore enough for two walks to make the same calls, whatever the nodes are
(`Resembles.sameCalls`): the two trees have one outline.

Two such relations tie untyped nodes to trees.  A node and a source tree are
related if they can be read from one JSON value, and nothing else is asked,
since the child rule looks for parameters first.  A node that describes a
target tree has its arguments where the tree has them, but parameters in the
same node would be walked in their place, so a node and a target tree are
related only if no call has both.
-/

namespace Polish

open Walk Outline

variable {N M : Type} [Walkable N] [Walkable M]

/-- A recorder gets the same calls for two trees, and both walks end well. -/
def SameCalls (n : N) (m : M) : Prop :=
  ∃ calls, Recorder.ofTree none n = (.ok (), calls) ∧ Recorder.ofTree none m = (.ok (), calls)

/-- Related nodes have one name, and their children are related in order. -/
structure Resembles (R : N → M → Prop) : Prop where
  kindName_eq {n : N} {m : M} : R n m → Walkable.kindName n = Walkable.kindName m
  children {n : N} {m : M} : R n m → ∃ ns ms, Walkable.children n = .ok ns ∧
    Walkable.children m = .ok ms ∧ List.Forall₂ R ns ms

theorem Walk.Known.of_children {n : N} {cs : List N} (hcs : Walkable.children n = .ok cs)
    (h : ∀ c ∈ cs, Known c) : Known n := by
  intro m hm
  cases hm with
  | refl => exact ⟨cs, hcs⟩
  | @child _ c cs' hcs' hc hm =>
      obtain rfl : cs = cs' := Except.ok.inj (hcs.symm.trans hcs')
      exact h c hc m hm

namespace Resembles

variable {R : N → M → Prop}

theorem forest (hR : Resembles R) {ns : List N} {ms : List M} (h : List.Forall₂ R ns ms) :
    (∀ n ∈ ns, Known n) ∧ (∀ m ∈ ms, Known m) ∧ ns.map outline = ms.map outline := by
  induction ns using Walkable.forest_induction generalizing ms with
  | nil =>
      cases h
      simp
  | cons n rest ihn ihrest =>
      cases h with
      | @cons _ m _ ms hnm hrest =>
          obtain ⟨cs, ds, hcs, hds, hchildren⟩ := hR.children hnm
          obtain ⟨hknown, hknown', houtlines⟩ := ihn cs hcs hchildren
          obtain ⟨hrest, hrest', hmap⟩ := ihrest hrest
          refine ⟨List.forall_mem_cons.mpr ⟨.of_children hcs hknown, hrest⟩,
            List.forall_mem_cons.mpr ⟨.of_children hds hknown', hrest'⟩, ?_⟩
          rw [List.map_cons, List.map_cons, hmap, outline_of_ok hcs, outline_of_ok hds,
            hR.kindName_eq hnm, houtlines]

theorem sameCalls (hR : Resembles R) {n : N} {m : M} (h : R n m) : SameCalls n m := by
  obtain ⟨hn, hm, houtline⟩ := hR.forest (.cons h .nil)
  rw [List.forall_mem_singleton] at hn hm
  obtain houtline : outline n = outline m := by simpa using houtline
  exact ⟨_, recorder_ofTree_of_known hn, houtline ▸ recorder_ofTree_of_known hm⟩

end Resembles

/-- A node and a source tree that can be read from one value. -/
def ReadAlike (n : Untyped) (t : Source) : Prop :=
  ∃ j, Source.ofJson? j = some t ∧ Untyped.ofJson? j = some n

theorem forall₂_readAlike {js : List Json} {ts : List Source} {ns : List Untyped}
    (hts : Source.ofJsonList? js = some ts) (hns : Untyped.ofJsonList? js = some ns) :
    List.Forall₂ ReadAlike ns ts := by
  induction js generalizing ts ns with
  | nil =>
      rw [Source.ofJsonList?] at hts
      rw [Untyped.ofJsonList?] at hns
      cases hts
      cases hns
      exact .nil
  | cons j js ih =>
      rw [Source.ofJsonList?] at hts
      rw [Untyped.ofJsonList?] at hns
      obtain ⟨t, ts, rfl, ht, hts⟩ := exists_cons_of_bind hts
      obtain ⟨n, ns, rfl, hn, hns⟩ := exists_cons_of_bind hns
      exact .cons ⟨j, ht, hn⟩ (ih hts hns)

namespace Untyped

variable {n : Untyped} {ns : List Untyped}

theorem children_of_body (htype : n.type = Kind.program.name) (h : n.body = some ns) :
    n.children = .ok ns := by
  rw [children, kind?_of_type htype, h]
  rfl

theorem children_of_params (htype : n.type = Kind.callExpression.name) (h : n.params = some ns) :
    n.children = .ok ns := by
  rw [children, kind?_of_type htype, h]
  rfl

theorem children_of_arguments (htype : n.type = Kind.callExpression.name)
    (hparams : n.params = none) (h : n.arguments = some ns) : n.children = .ok ns := by
  rw [children, kind?_of_type htype, hparams, h]
  rfl

theorem children_of_expression {m : Untyped} (htype : n.type = Kind.expressionStatement.name)
    (h : n.expression = some m) : n.children = .ok [m] := by
  rw [children, kind?_of_type htype, h]
  rfl

theorem children_of_leaf {k : Kind} (htype : n.type = k.name)
    (hk : k = .identifier ∨ k = .numberLiteral ∨ k = .stringLiteral) : n.children = .ok [] := by
  rw [children, kind?_of_type htype]
  rcases hk with rfl | rfl | rfl <;> rfl

end Untyped

theorem resembles_readAlike : Resembles ReadAlike where
  kindName_eq := by
    rintro n t ⟨j, ht, hn⟩
    obtain ⟨members, rfl, hkind, -⟩ := Source.exists_fieldsIn_of_ofJson? ht
    obtain ⟨_, hmembers, hnode⟩ := Untyped.exists_fieldsIn_of_ofJson? hn
    cases hmembers
    exact hnode.type_eq_name hkind
  children := by
    rintro n t ⟨j, ht, hn⟩
    obtain ⟨members, rfl, hkind, htree⟩ := Source.exists_fieldsIn_of_ofJson? ht
    obtain ⟨_, hmembers, hnode⟩ := Untyped.exists_fieldsIn_of_ofJson? hn
    cases hmembers
    have htype := hnode.type_eq_name hkind
    cases t with
    | program body =>
        obtain ⟨items, hitems, hbody⟩ := htree
        obtain ⟨ns, hfound, hns⟩ := Untyped.exists_of_nodesField? hnode.body hitems
        exact ⟨ns, body, Untyped.children_of_body htype hfound, rfl, forall₂_readAlike hbody hns⟩
    | number value =>
        exact ⟨[], [], Untyped.children_of_leaf (k := .numberLiteral) htype (by simp), rfl, .nil⟩
    | string value =>
        exact ⟨[], [], Untyped.children_of_leaf (k := .stringLiteral) htype (by simp), rfl, .nil⟩
    | call name params =>
        obtain ⟨-, items, hitems, hparams⟩ := htree
        obtain ⟨ns, hfound, hns⟩ := Untyped.exists_of_nodesField? hnode.params hitems
        exact ⟨ns, params, Untyped.children_of_params htype hfound, rfl,
          forall₂_readAlike hparams hns⟩

/-! ### Target trees -/

/-- No call that a walk of a node leads to has parameters. -/
def Untyped.ParamsFree (n : Untyped) : Prop :=
  ∀ m, Reached m n → m.kind? = some .callExpression → m.params = none

theorem Untyped.ParamsFree.of_mem_children {n c : Untyped} {cs : List Untyped} (h : n.ParamsFree)
    (hcs : n.children = .ok cs) (hc : c ∈ cs) : c.ParamsFree :=
  fun m hm => h m (.child hcs hc hm)

theorem forall₂_describedBy {ts : List Target} {ns : List Untyped}
    (h : Target.DescribedByList ts ns) : List.Forall₂ (fun n t => t.DescribedBy n) ns ts := by
  induction ts generalizing ns with
  | nil =>
      obtain rfl : ns = [] := h
      exact .nil
  | cons t ts ih =>
      obtain ⟨m, ms, rfl, hm, hms⟩ := h
      exact .cons hm (ih hms)

/-- A node that describes a tree has the children of the tree, described by
theirs, if parameters do not hide them. -/
theorem Target.DescribedBy.exists_children {t : Target} {n : Untyped} (h : t.DescribedBy n)
    (hparams : n.kind? = some .callExpression → n.params = none) :
    n.type = t.kind.name ∧ ∃ ns, n.children = .ok ns ∧
      List.Forall₂ (fun n t => t.DescribedBy n) ns t.children := by
  cases t with
  | program body =>
      obtain ⟨htype, ns, hbody, hns⟩ := h
      exact ⟨htype, ns, Untyped.children_of_body htype hbody, forall₂_describedBy hns⟩
  | statement expression =>
      obtain ⟨htype, m, hexpression, hm⟩ := h
      exact ⟨htype, [m], Untyped.children_of_expression htype hexpression, .cons hm .nil⟩
  | call callee arguments =>
      obtain ⟨htype, -, ns, harguments, hns⟩ := h
      have hnone := hparams (Untyped.kind?_of_type htype)
      exact ⟨htype, ns, Untyped.children_of_arguments htype hnone harguments,
        forall₂_describedBy hns⟩
  | identifier name => exact ⟨h.1, [], Untyped.children_of_leaf h.1 (by simp), .nil⟩
  | number value => exact ⟨h.1, [], Untyped.children_of_leaf h.1 (by simp), .nil⟩
  | string value => exact ⟨h.1, [], Untyped.children_of_leaf h.1 (by simp), .nil⟩

theorem resembles_describedBy :
    Resembles fun (n : Untyped) (t : Target) => n.ParamsFree ∧ t.DescribedBy n where
  kindName_eq := by
    rintro n t ⟨hfree, h⟩
    exact (h.exists_children (hfree n .refl)).1
  children := by
    rintro n t ⟨hfree, h⟩
    obtain ⟨-, ns, hns, hdescribed⟩ := h.exists_children (hfree n .refl)
    refine ⟨ns, t.children, hns, rfl, (List.forall₂_and_left ns t.children).mpr ⟨?_, hdescribed⟩⟩
    exact fun c hc => hfree.of_mem_children hns hc

theorem Untyped.children_ofTarget (t : Target) :
    (ofTarget t).children = .ok (t.children.map ofTarget) := by
  cases t with
  | program body => exact children_of_body rfl (congrArg some (ofTargets_eq_map body))
  | statement expression => rfl
  | call callee arguments =>
      exact children_of_arguments rfl rfl (congrArg some (ofTargets_eq_map arguments))
  | identifier name => rfl
  | number value => rfl
  | string value => rfl

theorem Untyped.paramsFree_ofTarget (t : Target) : (ofTarget t).ParamsFree := by
  intro m hm _
  -- What a walk of an untyped form leads to is the untyped form of a tree below.
  have hform : ∃ u, m = ofTarget u := by
    generalize hn : ofTarget t = n at hm
    induction hm generalizing t with
    | refl => exact ⟨t, hn.symm⟩
    | child hcs hc _ ih =>
        subst hn
        obtain rfl := Except.ok.inj ((children_ofTarget t).symm.trans hcs)
        obtain ⟨u, -, hu⟩ := List.mem_map.mp hc
        exact ih u hu
  obtain ⟨u, rfl⟩ := hform
  cases u <;> rfl

/-- A recorder cannot tell a typed tree from its untyped form, nor from any node
that is read from the same value; for target trees the node must not have
parameters in a call, since they would be walked in place of its arguments. -/
theorem recorder_ofTree_typed_untyped :
    (∀ t : Source, SameCalls (Untyped.ofSource t) t) ∧
    (∀ t : Target, SameCalls (Untyped.ofTarget t) t) ∧
    (∀ (j : Json) (t : Source) (n : Untyped), Source.ofJson? j = some t →
      Untyped.ofJson? j = some n → SameCalls n t) ∧
    ∀ (j : Json) (t : Target) (n : Untyped), Target.ofJson? j = some t →
      Untyped.ofJson? j = some n →
      (∀ m, Reached m n → m.kind? = some .callExpression → m.params = none) → SameCalls n t := by
  have hread : ∀ (j : Json) (t : Source) (n : Untyped), Source.ofJson? j = some t →
      Untyped.ofJson? j = some n → SameCalls n t := by
    intro j t n ht hn
    exact resembles_readAlike.sameCalls ⟨j, ht, hn⟩
  refine ⟨fun t => ?_, fun t => ?_, hread, fun j t n ht hn hparams => ?_⟩
  · exact hread t.toJson t _ t.ofJson?_toJson (Untyped.ofJson?_source_toJson t)
  · exact resembles_describedBy.sameCalls
      ⟨Untyped.paramsFree_ofTarget t, Target.describedBy_ofTarget t⟩
  · exact resembles_describedBy.sameCalls ⟨hparams, Target.describedBy_of_ofJson? ht hn⟩

/-- A source call with arguments besides its parameters, and a number under a key
that no node has. -/
def strayArguments : Json :=
  .object [
    ("arguments", .array [.object [("type", .string "Lambda")]]),
    ("line", .number 3 0),
    ("type", .string "CallExpression"),
    ("name", .string "f"),
    ("params", .array [.object [
      ("type", .string "NumberLiteral"), ("value", .string "1"), ("body", .array [])]])]

/-- A statement with parameters, which only calls are walked by, and a call with
parameters that are null. -/
def strayParams : Json :=
  .object [
    ("type", .string "ExpressionStatement"),
    ("params", .array [.object [("type", .string "Lambda")]]),
    ("expression", .object [
      ("type", .string "CallExpression"),
      ("params", .null),
      ("callee", .object [("type", .string "Identifier"), ("name", .string "f")]),
      ("arguments", .array [])])]

def strayParamsNode : Untyped where
  type := "ExpressionStatement"
  params := some [{ type := "Lambda" }]
  expression := some {
    type := "CallExpression"
    callee := some { type := "Identifier", name := some "f" }
    arguments := some [] }

theorem recorder_ofTree_typed_untyped_stray :
    Source.ofJson? strayArguments = some (.call "f" [.number "1"]) ∧
      (∃ n, Untyped.ofJson? strayArguments = some n ∧
        SameCalls n (Source.call "f" [.number "1"])) ∧
      Target.ofJson? strayParams = some (.statement (.call ⟨"f"⟩ [])) ∧
      Untyped.ofJson? strayParams = some strayParamsNode ∧
      (∀ m, Reached m strayParamsNode → m.kind? = some .callExpression → m.params = none) ∧
      SameCalls strayParamsNode (Target.statement (.call ⟨"f"⟩ [])) := by
  have hsource : Source.ofJson? strayArguments = some (.call "f" [.number "1"]) := by
    decide +kernel
  have hsome : (Untyped.ofJson? strayArguments).isSome = true := by decide +kernel
  obtain ⟨n, hn⟩ := Option.isSome_iff_exists.mp hsome
  have htarget : Target.ofJson? strayParams = some (.statement (.call ⟨"f"⟩ [])) := by
    decide +kernel
  have hnode : Untyped.ofJson? strayParams = some strayParamsNode := by decide +kernel
  have hfree : ∀ m, Reached m strayParamsNode → m.kind? = some .callExpression →
      m.params = none := by
    intro m hm hkind
    cases hm with
    | refl => cases hkind
    | child hcs hc h =>
        cases hcs
        obtain rfl := List.mem_singleton.mp hc
        cases h with
        | refl => rfl
        | child hcs hc => cases hcs; cases hc
  exact ⟨hsource, ⟨n, hn, recorder_ofTree_typed_untyped.2.2.1 _ _ _ hsource hn⟩, htarget, hnode,
    hfree, recorder_ofTree_typed_untyped.2.2.2 _ _ _ htarget hnode hfree⟩

end Polish
