import Polish.Proofs.Rendering
import Polish.Untyped.Walk

/-!
Where writing an untyped node fails.

The kind of a node says which fields are written, and in which order they are
looked for.  A node is defective if its kind is unknown or such a field is
absent.  The nodes that are written are listed in the order of writing, each
before its own written children, and nothing is written below a defect
(`renderedNodes`).  Writing fails with the first defect in this list; if there
is none, the text is put together from the texts of the children.

A field that the kind of its node does not write makes no difference, and
neither does what is below it (`bare`).
-/

namespace Polish

namespace Untyped

/-- The fields that are written for a kind, in the order in which they are
looked for. -/
def writtenFields : Kind → List Field
  | .program => [.body]
  | .expressionStatement => [.expression]
  | .callExpression => [.callee, .arguments]
  | .identifier => [.name]
  | .numberLiteral => [.value]
  | .stringLiteral => [.value]

def has (n : Untyped) : Field → Bool
  | .value => n.value.isSome
  | .name => n.name.isSome
  | .params => n.params.isSome
  | .body => n.body.isSome
  | .expression => n.expression.isSome
  | .callee => n.callee.isSome
  | .arguments => n.arguments.isSome

/-- What is wrong with a node itself, apart from the nodes below it: an unknown
kind, or the first of the written fields that is absent. -/
def defect? (n : Untyped) : Option RenderError :=
  match n.kind? with
  | none => some (.unknownKind n.type)
  | some k => ((writtenFields k).find? fun f => !n.has f).map (.missingField n.type)

def renderedChildren (n : Untyped) : List Untyped :=
  match n.kind? with
  | some .program => n.body.getD []
  | some .expressionStatement => n.expression.toList
  | some .callExpression => n.callee.toList ++ n.arguments.getD []
  | _ => []

theorem total_size_renderedChildren_lt (n : Untyped) : total size n.renderedChildren < n.size := by
  obtain ⟨type, value, name, params, body, expression, callee, arguments⟩ := n
  simp only [renderedChildren, size]
  split
  · rw [total_size_getD]
    omega
  · rw [total_size_toList]
    omega
  · rw [total_append, total_size_toList, total_size_getD]
    omega
  · rw [total_nil]
    omega

mutual

/-- The nodes that are written, in the order of writing: a node stands before
its children, and nothing below a defective node is written. -/
def renderedNodes (n : Untyped) : List Untyped :=
  n :: if n.defect?.isSome then [] else renderedNodesAll n.renderedChildren
termination_by 2 * n.size
decreasing_by
  have := total_size_renderedChildren_lt n
  omega

def renderedNodesAll (ns : List Untyped) : List Untyped :=
  match ns with
  | [] => []
  | n :: rest => renderedNodes n ++ renderedNodesAll rest
termination_by 2 * total size ns + 1
decreasing_by
  · rw [total_cons]
    omega
  · have := size_pos n
    rw [total_cons]
    omega

end

/-- A text from the texts of the written children. -/
def compose (n : Untyped) (parts : List String) : String :=
  match n.kind? with
  | some .program => String.intercalate "\n" parts
  | some .expressionStatement => parts.headD "" ++ ";"
  | some .callExpression => parts.headD "" ++ "(" ++ String.intercalate ", " parts.tail ++ ")"
  | some .identifier => n.name.getD ""
  | some .numberLiteral => n.value.getD ""
  | some .stringLiteral => "\"" ++ n.value.getD "" ++ "\""
  | none => ""

mutual

def text (n : Untyped) : String :=
  n.compose (textAll n.renderedChildren)
termination_by 2 * n.size
decreasing_by
  have := total_size_renderedChildren_lt n
  omega

def textAll (ns : List Untyped) : List String :=
  match ns with
  | [] => []
  | n :: rest => text n :: textAll rest
termination_by 2 * total size ns + 1
decreasing_by
  · rw [total_cons]
    omega
  · have := size_pos n
    rw [total_cons]
    omega

end

@[elab_as_elim] theorem rendered_induction {motive : List Untyped → Prop} (nil : motive [])
    (cons : ∀ n rest, motive n.renderedChildren → motive rest → motive (n :: rest))
    (forest : List Untyped) : motive forest :=
  match forest with
  | [] => nil
  | n :: rest =>
      cons n rest (rendered_induction nil cons n.renderedChildren)
        (rendered_induction nil cons rest)
termination_by total size forest
decreasing_by
  · have := total_size_renderedChildren_lt n
    rw [total_cons]
    omega
  · have := size_pos n
    rw [total_cons]
    omega

/-- A node fails by its own defect, or its text is put together from the texts
of its written children. -/
theorem render_eq_of_defect? (n : Untyped) :
    n.render =
      match n.defect? with
      | some e => .error e
      | none => (renderList n.renderedChildren).map n.compose := by
  obtain ⟨type, value, name, params, body, expression, callee, arguments⟩ := n
  rw [render_eq, defect?, renderedChildren]
  unfold compose
  simp only [kind?]
  cases Kind.ofName? type with
  | none => rfl
  | some k =>
      cases k with
      | program => cases body <;> rfl
      | expressionStatement =>
          cases expression with
          | none => rfl
          | some inner =>
              change inner.render.map _ = (renderList [inner]).map _
              rw [renderList, renderList]
              cases inner.render <;> rfl
      | callExpression =>
          -- Both fields are looked for before the callee is written.
          cases callee with
          | none => rfl
          | some f =>
              cases arguments with
              | none => rfl
              | some args =>
                  change (do
                      let callee ← f.render
                      let arguments ← renderList args
                      return Text.application callee arguments) = (renderList (f :: args)).map _
                  rw [renderList]
                  cases f.render with
                  | error e => rfl
                  | ok first => cases renderList args <;> rfl
      | identifier => cases name <;> rfl
      | numberLiteral => cases value <;> rfl
      | stringLiteral => cases value <;> rfl

/-! ### The first defect -/

/-- A result, unless one of some nodes is defective; then the first defect. -/
def unlessDefect {α : Type} (nodes : List Untyped) (a : α) : Except RenderError α :=
  match nodes.findSome? defect? with
  | some e => .error e
  | none => .ok a

theorem unlessDefect_eq_error_iff {α : Type} {nodes : List Untyped} {a : α} {e : RenderError} :
    unlessDefect nodes a = .error e ↔
      ∃ before m after, nodes = before ++ m :: after ∧ (∀ d ∈ before, d.defect? = none) ∧
        m.defect? = some e := by
  have herror : unlessDefect nodes a = .error e ↔ nodes.findSome? defect? = some e := by
    unfold unlessDefect
    cases nodes.findSome? defect? <;> simp
  rw [herror, List.findSome?_eq_some_iff]
  constructor
  · rintro ⟨before, m, after, hnodes, hm, hbefore⟩
    exact ⟨before, m, after, hnodes, hbefore, hm⟩
  · rintro ⟨before, m, after, hnodes, hbefore, hm⟩
    exact ⟨before, m, after, hnodes, hm, hbefore⟩

theorem unlessDefect_eq_ok_iff {α : Type} {nodes : List Untyped} {a b : α} :
    unlessDefect nodes a = .ok b ↔ (∀ m ∈ nodes, m.defect? = none) ∧ b = a := by
  rw [← List.findSome?_eq_none_iff]
  unfold unlessDefect
  cases nodes.findSome? defect? with
  | some e => simp
  | none => simp [eq_comm]

theorem renderedNodes_of_no_defect {n : Untyped} (h : n.defect? = none) :
    n.renderedNodes = n :: renderedNodesAll n.renderedChildren := by
  rw [renderedNodes, h]
  rfl

theorem renderedNodes_of_defect {n : Untyped} {e : RenderError} (h : n.defect? = some e) :
    n.renderedNodes = [n] := by
  rw [renderedNodes, h]
  rfl

theorem render_of_children {n : Untyped}
    (hchildren : renderList n.renderedChildren =
      unlessDefect (renderedNodesAll n.renderedChildren) (textAll n.renderedChildren)) :
    n.render = unlessDefect n.renderedNodes n.text := by
  rw [render_eq_of_defect?, hchildren, text]
  cases hdefect : n.defect? with
  | some e =>
      rw [renderedNodes_of_defect hdefect]
      simp only [unlessDefect, List.findSome?_cons, hdefect]
  | none =>
      rw [renderedNodes_of_no_defect hdefect]
      simp only [unlessDefect, List.findSome?_cons, hdefect]
      cases (renderedNodesAll n.renderedChildren).findSome? defect? <;> rfl

theorem renderList_eq_unlessDefect (ns : List Untyped) :
    renderList ns = unlessDefect (renderedNodesAll ns) (textAll ns) := by
  induction ns using rendered_induction with
  | nil =>
      rw [renderedNodesAll, textAll]
      rfl
  | cons n rest ihn ihrest =>
      rw [renderList, render_of_children ihn, ihrest, renderedNodesAll, textAll]
      -- A defect in the first node hides those in the others.
      simp only [unlessDefect, List.findSome?_append]
      cases n.renderedNodes.findSome? defect? with
      | some e => rfl
      | none => cases (renderedNodesAll rest).findSome? defect? <;> rfl

theorem render_eq_unlessDefect (n : Untyped) : n.render = unlessDefect n.renderedNodes n.text :=
  render_of_children (renderList_eq_unlessDefect n.renderedChildren)

/-! ### Fields that are not written -/

mutual

/-- A node with the written fields only, and so the nodes below it. -/
def bare : Untyped → Untyped
  | ⟨type, value, name, _, body, expression, callee, arguments⟩ =>
    match Kind.ofName? type with
    | none => { type }
    | some .program => { type, body := bareNodes body }
    | some .expressionStatement => { type, expression := bareNode expression }
    | some .callExpression =>
      { type, callee := bareNode callee, arguments := bareNodes arguments }
    | some .identifier => { type, name }
    | some .numberLiteral => { type, value }
    | some .stringLiteral => { type, value }

def bareNode : Option Untyped → Option Untyped
  | none => none
  | some n => some n.bare

def bareNodes : Option (List Untyped) → Option (List Untyped)
  | none => none
  | some ns => some (bareList ns)

def bareList : List Untyped → List Untyped
  | [] => []
  | n :: ns => n.bare :: bareList ns

end

theorem bareList_eq_map (ns : List Untyped) : bareList ns = ns.map bare := by
  induction ns with
  | nil => rfl
  | cons n ns ih => rw [bareList, ih, List.map_cons]

theorem toList_bareNode (n : Option Untyped) : (bareNode n).toList = n.toList.map bare := by
  cases n <;> rfl

theorem getD_bareNodes (ns : Option (List Untyped)) :
    (bareNodes ns).getD [] = (ns.getD []).map bare := by
  cases ns with
  | none => rfl
  | some ns => exact bareList_eq_map ns

theorem isSome_bareNode (n : Option Untyped) : (bareNode n).isSome = n.isSome := by
  cases n <;> rfl

theorem isSome_bareNodes (ns : Option (List Untyped)) : (bareNodes ns).isSome = ns.isSome := by
  cases ns <;> rfl

theorem defect?_bare (n : Untyped) : n.bare.defect? = n.defect? := by
  obtain ⟨type, value, name, params, body, expression, callee, arguments⟩ := n
  rw [bare]
  cases hkind : Kind.ofName? type with
  | none => simp only [defect?, kind?, hkind]
  | some k =>
      cases k <;>
        simp only [defect?, kind?, hkind, writtenFields, List.find?_cons, List.find?_nil, has,
          isSome_bareNode, isSome_bareNodes]

theorem renderedChildren_bare (n : Untyped) :
    n.bare.renderedChildren = n.renderedChildren.map bare := by
  obtain ⟨type, value, name, params, body, expression, callee, arguments⟩ := n
  rw [bare]
  cases hkind : Kind.ofName? type with
  | none => simp only [renderedChildren, kind?, hkind, List.map_nil]
  | some k =>
      cases k <;>
        simp only [renderedChildren, kind?, hkind, List.map_nil, List.map_append, toList_bareNode,
          getD_bareNodes]

theorem compose_bare (n : Untyped) (parts : List String) :
    n.bare.compose parts = n.compose parts := by
  obtain ⟨type, value, name, params, body, expression, callee, arguments⟩ := n
  rw [bare]
  cases hkind : Kind.ofName? type with
  | none => simp only [compose, kind?, hkind]
  | some k => cases k <;> simp only [compose, kind?, hkind]

theorem render_bare_of_children {n : Untyped}
    (hchildren : renderList (n.renderedChildren.map bare) = renderList n.renderedChildren) :
    n.bare.render = n.render := by
  rw [render_eq_of_defect?, render_eq_of_defect?, defect?_bare, funext (compose_bare n),
    renderedChildren_bare, hchildren]

theorem renderList_map_bare (ns : List Untyped) : renderList (ns.map bare) = renderList ns := by
  induction ns using rendered_induction with
  | nil => rfl
  | cons n rest ihn ihrest =>
      rw [List.map_cons, renderList, renderList, render_bare_of_children ihn, ihrest]

/-- Writing a node fails exactly if one of the written nodes is defective, and
the error is the defect of the first such node in the order of writing.
Otherwise the result is the text put together from the written fields.  Fields
that are not written never matter. -/
theorem render_reports_first_defect (n : Untyped) :
    (∀ e, n.render = .error e ↔
      ∃ before m after, n.renderedNodes = before ++ m :: after ∧
        (∀ d ∈ before, d.defect? = none) ∧ m.defect? = some e) ∧
    (∀ out, n.render = .ok out ↔ (∀ m ∈ n.renderedNodes, m.defect? = none) ∧ out = n.text) ∧
    n.bare.render = n.render := by
  refine ⟨fun e => ?_, fun out => ?_, ?_⟩
  · rw [render_eq_unlessDefect, unlessDefect_eq_error_iff]
  · rw [render_eq_unlessDefect, unlessDefect_eq_ok_iff]
  · exact render_bare_of_children (renderList_map_bare n.renderedChildren)

end Untyped

end Polish
