import Polish.Proofs.Description
import Polish.Render

/-!
The text of a tree and the text of an untyped node.  Both are written by a
computation that can fail.  A target tree gives it no reason to, and `text` is
what it always comes to (`Target.render_eq_ok`).  An untyped node may lack a
field or have an unknown kind; but a node that describes a target tree has every
field that writing looks for, so there the two agree, and stray fields are not
written.
-/

namespace Polish

namespace Target

mutual

/-- The text of a tree, put together with no way to fail. -/
def text : Target → String
  | .program body => Text.lines (textList body)
  | .statement expression => Text.terminated expression.text
  | .call callee arguments => Text.application callee.name (textList arguments)
  | .identifier name => name
  | .number value => value
  | .string value => Text.quoted value

def textList : List Target → List String
  | [] => []
  | t :: ts => t.text :: textList ts

end

theorem textList_eq_map (ts : List Target) : textList ts = ts.map text := by
  induction ts with
  | nil => rfl
  | cons t ts ih => rw [textList, ih, List.map_cons]

mutual

/-- Writing a target tree never fails. -/
theorem render_eq_ok : (t : Target) → t.render = .ok t.text
  | .program body => by
      rw [render, renderList_eq_ok body]
      rfl
  | .statement expression => by
      rw [render, render_eq_ok expression]
      rfl
  | .call callee arguments => by
      rw [render, renderList_eq_ok arguments]
      rfl
  | .identifier _ => rfl
  | .number _ => rfl
  | .string _ => rfl

theorem renderList_eq_ok : (ts : List Target) → renderList ts = .ok (textList ts)
  | [] => rfl
  | t :: ts => by
      rw [renderList, render_eq_ok t, renderList_eq_ok ts]
      rfl

end

end Target

namespace Untyped

theorem kind?_of_type {n : Untyped} {k : Kind} (h : n.type = k.name) : n.kind? = some k := by
  rw [kind?, h, Kind.ofName?_name]

theorem render_eq (n : Untyped) :
    n.render =
      match n.kind? with
      | none => .error (.unknownKind n.type)
      | some .program =>
        match n.body with
        | none => .error (.missingField n.type .body)
        | some items => (renderList items).map Text.lines
      | some .expressionStatement =>
        match n.expression with
        | none => .error (.missingField n.type .expression)
        | some inner => inner.render.map Text.terminated
      | some .callExpression =>
        match n.callee, n.arguments with
        | none, _ => .error (.missingField n.type .callee)
        | some _, none => .error (.missingField n.type .arguments)
        | some f, some args => do
          let callee ← f.render
          let arguments ← renderList args
          return Text.application callee arguments
      | some .identifier => need n.type .name n.name
      | some .numberLiteral => need n.type .value n.value
      | some .stringLiteral => (need n.type .value n.value).map Text.quoted := by
  cases n
  rw [render.eq_def]
  rfl

mutual

theorem render_of_describedBy : {t : Target} → {n : Untyped} → t.DescribedBy n →
    n.render = .ok t.text
  | .program body, n, ⟨htype, ns, hbody, hns⟩ => by
      simp only [render_eq n, kind?_of_type htype, hbody, renderList_of_describedBy hns]
      rfl
  | .statement expression, n, ⟨htype, m, hexpression, hm⟩ => by
      simp only [render_eq n, kind?_of_type htype, hexpression, render_of_describedBy hm]
      rfl
  | .call callee arguments, n, ⟨htype, ⟨f, hf, hftype, hname⟩, ns, harguments, hns⟩ => by
      have hcallee : f.render = .ok callee.name := by
        simp only [render_eq f, kind?_of_type hftype, hname, need]
      simp only [render_eq n, kind?_of_type htype, hf, harguments, hcallee,
        renderList_of_describedBy hns]
      rfl
  | .identifier name, n, ⟨htype, hname⟩ => by
      simp only [render_eq n, kind?_of_type htype, hname, need, Target.text]
  | .number value, n, ⟨htype, hvalue⟩ => by
      simp only [render_eq n, kind?_of_type htype, hvalue, need, Target.text]
  | .string value, n, ⟨htype, hvalue⟩ => by
      simp only [render_eq n, kind?_of_type htype, hvalue, need]
      rfl

theorem renderList_of_describedBy : {ts : List Target} → {ns : List Untyped} →
    Target.DescribedByList ts ns → renderList ns = .ok (Target.textList ts)
  | [], ns, hns => by
      obtain rfl : ns = [] := hns
      rfl
  | t :: ts, ns, ⟨m, ms, hns, hm, hms⟩ => by
      rw [hns, renderList, render_of_describedBy hm, renderList_of_describedBy hms]
      rfl

end

theorem render_ofTarget (t : Target) : (ofTarget t).render = .ok t.text :=
  render_of_describedBy (Target.describedBy_ofTarget t)

/-- Writing a target tree succeeds, and writing an untyped node for it gives the
same text: for the untyped form of the tree, and for whatever node is read from a
value that the tree is read from. -/
theorem render_eq_target_render :
    (∀ t : Target, ∃ out, t.render = .ok out ∧ (ofTarget t).render = .ok out) ∧
      ∀ (j : Json) (t : Target) (n : Untyped), Target.ofJson? j = some t → ofJson? j = some n →
        n.render = t.render := by
  refine ⟨fun t => ⟨t.text, t.render_eq_ok, render_ofTarget t⟩, fun j t n ht hn => ?_⟩
  rw [t.render_eq_ok]
  exact render_of_describedBy (Target.describedBy_of_ofJson? ht hn)

/-- A statement in JSON with members that belong to other kinds or to none, the
callee among them. -/
def strayMembers : Json :=
  .object [
    ("params", .array []),
    ("type", .string "ExpressionStatement"),
    ("line", .number 1 0),
    ("expression", .object [
      ("type", .string "CallExpression"),
      ("value", .null),
      ("callee", .object [
        ("name", .string "f"), ("type", .string "Identifier"), ("body", .array [])]),
      ("arguments", .array [.object [
        ("type", .string "StringLiteral"), ("value", .string "a"), ("name", .string "b")]])])]

theorem render_eq_target_render_strayMembers :
    ∃ n, ofJson? strayMembers = some n ∧
      Target.ofJson? strayMembers = some (.statement (.call ⟨"f"⟩ [.string "a"])) ∧
      n.render = .ok "f(\"a\");" := by
  have ht : Target.ofJson? strayMembers = some (.statement (.call ⟨"f"⟩ [.string "a"])) := by
    decide +kernel
  have hn : (ofJson? strayMembers).isSome = true := by decide +kernel
  obtain ⟨n, hn⟩ := Option.isSome_iff_exists.mp hn
  refine ⟨n, hn, ht, ?_⟩
  rw [render_eq_target_render.2 _ _ _ ht hn]
  rfl

end Untyped

end Polish
