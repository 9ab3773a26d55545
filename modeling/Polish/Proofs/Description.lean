import Polish.Source.Json
import Polish.Target.Json
import Polish.Untyped.Json

/-!
Untyped nodes that describe target trees, and what the readers of JSON find.

A node describes a tree if it says the kind of the tree and has the fields of
that kind, with nodes that describe the trees in them.  What else it has is
left open, so a tree is described by its untyped form and by every node that
has stray fields besides.

The same JSON value may be read as a target tree and as an untyped node.  The
two readers do not ask for the same: one looks at the fields of a single kind
and wants an identifier for a callee, the other looks at all fields and takes
any node for one.  Where both succeed, the node describes the tree
(`describedBy_of_ofJson?`).

Behind this stands one statement for each reader: what it gives comes from an
object, and `FieldsIn` says which members of the object it comes from.
-/

namespace Polish

namespace Json

variable {members : List (String × Json)} {key : String}

theorem text?_eq_some_iff {s : String} :
    text? members key = some s ↔ members.lookup key = some (.string s) := by
  unfold text?
  split
  · next hlookup => simp [hlookup]
  · next hother => exact iff_of_false (by simp) (hother s)

theorem items?_eq_some_iff {items : List Json} :
    items? members key = some items ↔ members.lookup key = some (.array items) := by
  unfold items?
  split
  · next hlookup => simp [hlookup]
  · next hother => exact iff_of_false (by simp) (hother items)

theorem text?_of_kind? {k : Kind} (h : kind? members = some k) :
    text? members "type" = some k.name := by
  obtain ⟨j, hlookup, hj⟩ := Option.bind_eq_some_iff.mp h
  cases j with
  | string s => rw [text?_eq_some_iff, hlookup, Kind.name_of_ofName? hj]
  | _ => cases hj

end Json

theorem exists_cons_of_bind {α : Type} {first : Option α} {others : Option (List α)}
    {as : List α} (h : (do return (← first) :: (← others)) = some as) :
    ∃ b bs, as = b :: bs ∧ first = some b ∧ others = some bs := by
  obtain ⟨b, hb, h⟩ := Option.bind_eq_some_iff.mp h
  obtain ⟨bs, hbs, h⟩ := Option.bind_eq_some_iff.mp h
  cases h
  exact ⟨b, bs, rfl, hb, hbs⟩

theorem Identifier.exists_of_ofJson? {j : Json} {i : Identifier} (h : ofJson? j = some i) :
    ∃ members, j = .object members ∧ Json.kind? members = some .identifier ∧
      Json.text? members "name" = some i.name := by
  unfold ofJson? at h
  split at h
  · next members =>
    split at h
    · next hkind =>
      obtain ⟨name, hname, rfl⟩ := Option.map_eq_some_iff.mp h
      exact ⟨members, rfl, hkind, hname⟩
    · cases h
  · cases h

namespace Source

/-- The members of an object give the fields of a tree. -/
def FieldsIn (members : List (String × Json)) : Source → Prop
  | .program body =>
    ∃ items, Json.items? members "body" = some items ∧ ofJsonList? items = some body
  | .number value => Json.text? members "value" = some value
  | .string value => Json.text? members "value" = some value
  | .call name params =>
    Json.text? members "name" = some name ∧
      ∃ items, Json.items? members "params" = some items ∧ ofJsonList? items = some params

theorem exists_fieldsIn_of_ofJson? {j : Json} {t : Source} (h : ofJson? j = some t) :
    ∃ members, j = .object members ∧ Json.kind? members = some t.kind ∧ t.FieldsIn members := by
  unfold ofJson? at h
  split at h
  · next members =>
    refine ⟨members, rfl, ?_⟩
    split at h
    · next hkind =>
      split at h
      · next items hitems =>
        obtain ⟨body, hbody, rfl⟩ := Option.map_eq_some_iff.mp h
        exact ⟨hkind, items, hitems, hbody⟩
      · cases h
    · next hkind =>
      obtain ⟨value, hvalue, rfl⟩ := Option.map_eq_some_iff.mp h
      exact ⟨hkind, hvalue⟩
    · next hkind =>
      obtain ⟨value, hvalue, rfl⟩ := Option.map_eq_some_iff.mp h
      exact ⟨hkind, hvalue⟩
    · next hkind =>
      split at h
      · next name items hname hitems =>
        obtain ⟨params, hparams, rfl⟩ := Option.map_eq_some_iff.mp h
        exact ⟨hkind, hname, items, hitems, hparams⟩
      · cases h
    · cases h
  · cases h

end Source

namespace Target

def FieldsIn (members : List (String × Json)) : Target → Prop
  | .program body =>
    ∃ items, Json.items? members "body" = some items ∧ ofJsonList? items = some body
  | .statement expression =>
    ∃ inner, members.lookup "expression" = some inner ∧ ofJson? inner = some expression
  | .call callee arguments =>
    (∃ inner, members.lookup "callee" = some inner ∧ Identifier.ofJson? inner = some callee) ∧
      ∃ items, Json.items? members "arguments" = some items ∧ ofJsonList? items = some arguments
  | .identifier name => Json.text? members "name" = some name
  | .number value => Json.text? members "value" = some value
  | .string value => Json.text? members "value" = some value

theorem exists_fieldsIn_of_ofJson? {j : Json} {t : Target} (h : ofJson? j = some t) :
    ∃ members, j = .object members ∧ Json.kind? members = some t.kind ∧ t.FieldsIn members := by
  unfold ofJson? at h
  split at h
  · next members =>
    refine ⟨members, rfl, ?_⟩
    split at h
    · next hkind =>
      split at h
      · next items hitems =>
        obtain ⟨body, hbody, rfl⟩ := Option.map_eq_some_iff.mp h
        exact ⟨hkind, items, hitems, hbody⟩
      · cases h
    · next hkind =>
      split at h
      · next inner hinner =>
        obtain ⟨expression, hexpression, rfl⟩ := Option.map_eq_some_iff.mp h
        exact ⟨hkind, inner, hinner, hexpression⟩
      · cases h
    · next hkind =>
      split at h
      · next callee items hcallee hitems =>
        obtain ⟨arguments, harguments, rfl⟩ := Option.map_eq_some_iff.mp h
        exact ⟨hkind, Option.bind_eq_some_iff.mp hcallee, items, hitems, harguments⟩
      · cases h
    · next hkind =>
      obtain ⟨name, hname, rfl⟩ := Option.map_eq_some_iff.mp h
      exact ⟨hkind, hname⟩
    · next hkind =>
      obtain ⟨value, hvalue, rfl⟩ := Option.map_eq_some_iff.mp h
      exact ⟨hkind, hvalue⟩
    · next hkind =>
      obtain ⟨value, hvalue, rfl⟩ := Option.map_eq_some_iff.mp h
      exact ⟨hkind, hvalue⟩
    · cases h
  · cases h

end Target

namespace Untyped

/-- The members of an object give all fields of a node. -/
structure FieldsIn (members : List (String × Json)) (n : Untyped) : Prop where
  type : Json.text? members "type" = some n.type
  value : textField? members .value = some n.value
  name : textField? members .name = some n.name
  params : nodesField? members .params = some n.params
  body : nodesField? members .body = some n.body
  expression : nodeField? members .expression = some n.expression
  callee : nodeField? members .callee = some n.callee
  arguments : nodesField? members .arguments = some n.arguments

theorem exists_fieldsIn_of_ofJson? {j : Json} {n : Untyped} (h : ofJson? j = some n) :
    ∃ members, j = .object members ∧ n.FieldsIn members := by
  unfold ofJson? at h
  split at h
  · next members =>
    obtain ⟨type, htype, h⟩ := Option.bind_eq_some_iff.mp h
    obtain ⟨value, hvalue, h⟩ := Option.bind_eq_some_iff.mp h
    obtain ⟨name, hname, h⟩ := Option.bind_eq_some_iff.mp h
    obtain ⟨params, hparams, h⟩ := Option.bind_eq_some_iff.mp h
    obtain ⟨body, hbody, h⟩ := Option.bind_eq_some_iff.mp h
    obtain ⟨expression, hexpression, h⟩ := Option.bind_eq_some_iff.mp h
    obtain ⟨callee, hcallee, h⟩ := Option.bind_eq_some_iff.mp h
    obtain ⟨arguments, harguments, h⟩ := Option.bind_eq_some_iff.mp h
    cases h
    exact ⟨members, rfl, htype, hvalue, hname, hparams, hbody, hexpression, hcallee, harguments⟩
  · cases h

variable {members : List (String × Json)} {field : Field}

theorem FieldsIn.type_eq_name {n : Untyped} {k : Kind} (h : n.FieldsIn members)
    (hkind : Json.kind? members = some k) : n.type = k.name :=
  Option.some.inj (h.type.symm.trans (Json.text?_of_kind? hkind))

theorem eq_some_of_textField? {s : String} {found : Option String}
    (h : textField? members field = some found)
    (htext : Json.text? members field.label = some s) : found = some s := by
  have hpresent : Json.isAbsent members field.label = false := by
    rw [Json.isAbsent, Json.text?_eq_some_iff.mp htext]
  rw [textField?, hpresent, htext] at h
  exact (Option.some.inj h).symm

theorem exists_of_nodesField? {items : List Json} {found : Option (List Untyped)}
    (h : nodesField? members field = some found)
    (hitems : Json.items? members field.label = some items) :
    ∃ ns, found = some ns ∧ ofJsonList? items = some ns := by
  have hpresent : Json.isAbsent members field.label = false := by
    rw [Json.isAbsent, Json.items?_eq_some_iff.mp hitems]
  rw [nodesField?, hpresent, if_neg Bool.false_ne_true] at h
  split at h
  · next items' hitems' =>
    obtain rfl : items = items' := by simpa [hitems] using hitems'
    obtain ⟨ns, hns, rfl⟩ := Option.map_eq_some_iff.mp h
    exact ⟨ns, rfl, hns⟩
  · cases h

theorem exists_of_nodeField? {inner : List (String × Json)} {found : Option Untyped}
    (h : nodeField? members field = some found)
    (hinner : members.lookup field.label = some (.object inner)) :
    ∃ n, found = some n ∧ ofJson? (.object inner) = some n := by
  rw [nodeField?] at h
  split at h
  · simp_all
  · simp_all
  · next j _ hj =>
    obtain rfl : Json.object inner = j := by simpa [hinner] using hj
    obtain ⟨n, hn, rfl⟩ := Option.map_eq_some_iff.mp h
    exact ⟨n, rfl, hn⟩

end Untyped

namespace Target

mutual

/-- A node has the kind of a tree, and its fields of that kind describe the
fields of the tree. -/
def DescribedBy : Target → Untyped → Prop
  | .program body, n =>
    n.type = Kind.program.name ∧ ∃ ns, n.body = some ns ∧ DescribedByList body ns
  | .statement expression, n =>
    n.type = Kind.expressionStatement.name ∧
      ∃ m, n.expression = some m ∧ expression.DescribedBy m
  | .call callee arguments, n =>
    n.type = Kind.callExpression.name ∧
      (∃ f, n.callee = some f ∧ f.type = Kind.identifier.name ∧ f.name = some callee.name) ∧
      ∃ ns, n.arguments = some ns ∧ DescribedByList arguments ns
  | .identifier name, n => n.type = Kind.identifier.name ∧ n.name = some name
  | .number value, n => n.type = Kind.numberLiteral.name ∧ n.value = some value
  | .string value, n => n.type = Kind.stringLiteral.name ∧ n.value = some value

def DescribedByList : List Target → List Untyped → Prop
  | [], ns => ns = []
  | t :: ts, ns => ∃ m ms, ns = m :: ms ∧ t.DescribedBy m ∧ DescribedByList ts ms

end

mutual

theorem describedBy_ofTarget : (t : Target) → t.DescribedBy (.ofTarget t)
  | .program body => ⟨rfl, _, rfl, describedByList_ofTargets body⟩
  | .statement expression => ⟨rfl, _, rfl, describedBy_ofTarget expression⟩
  | .call _ arguments => ⟨rfl, ⟨_, rfl, rfl, rfl⟩, _, rfl, describedByList_ofTargets arguments⟩
  | .identifier _ => ⟨rfl, rfl⟩
  | .number _ => ⟨rfl, rfl⟩
  | .string _ => ⟨rfl, rfl⟩

theorem describedByList_ofTargets : (ts : List Target) → DescribedByList ts (Untyped.ofTargets ts)
  | [] => rfl
  | t :: ts => ⟨_, _, rfl, describedBy_ofTarget t, describedByList_ofTargets ts⟩

end

/-- An object that is read in both ways has all the fields that either reader
asks for, and one kind. -/
theorem exists_members_of_both {j : Json} {t : Target} {n : Untyped} (ht : ofJson? j = some t)
    (hn : Untyped.ofJson? j = some n) :
    ∃ members, n.type = t.kind.name ∧ t.FieldsIn members ∧ n.FieldsIn members := by
  obtain ⟨members, rfl, hkind, htree⟩ := exists_fieldsIn_of_ofJson? ht
  obtain ⟨_, hmembers, hnode⟩ := Untyped.exists_fieldsIn_of_ofJson? hn
  cases hmembers
  exact ⟨members, hnode.type_eq_name hkind, htree, hnode⟩

mutual

theorem describedBy_of_ofJson? {j : Json} {n : Untyped} : {t : Target} →
    ofJson? j = some t → Untyped.ofJson? j = some n → t.DescribedBy n
  | .program body, ht, hn => by
      obtain ⟨members, htype, ⟨items, hitems, hbody⟩, hnode⟩ := exists_members_of_both ht hn
      obtain ⟨ns, hfound, hns⟩ := Untyped.exists_of_nodesField? hnode.body hitems
      exact ⟨htype, ns, hfound, describedByList_of_ofJsonList? hbody hns⟩
  | .statement expression, ht, hn => by
      obtain ⟨members, htype, ⟨inner, hinner, hexpression⟩, hnode⟩ := exists_members_of_both ht hn
      obtain ⟨fields, rfl, -⟩ := exists_fieldsIn_of_ofJson? hexpression
      obtain ⟨m, hfound, hm⟩ := Untyped.exists_of_nodeField? hnode.expression hinner
      exact ⟨htype, m, hfound, describedBy_of_ofJson? hexpression hm⟩
  | .call callee arguments, ht, hn => by
      obtain ⟨members, htype, ⟨⟨inner, hinner, hcallee⟩, items, hitems, harguments⟩, hnode⟩ :=
        exists_members_of_both ht hn
      obtain ⟨ns, hfound, hns⟩ := Untyped.exists_of_nodesField? hnode.arguments hitems
      refine ⟨htype, ?_, ns, hfound, describedByList_of_ofJsonList? harguments hns⟩
      -- The callee is read as an identifier on one side and as a node like any other on the other.
      obtain ⟨fields, rfl, hkind, hname⟩ := Identifier.exists_of_ofJson? hcallee
      obtain ⟨f, hcalled, hf⟩ := Untyped.exists_of_nodeField? hnode.callee hinner
      obtain ⟨_, hmembers, hfields⟩ := Untyped.exists_fieldsIn_of_ofJson? hf
      cases hmembers
      exact ⟨f, hcalled, hfields.type_eq_name hkind,
        Untyped.eq_some_of_textField? hfields.name hname⟩
  | .identifier name, ht, hn => by
      obtain ⟨members, htype, hname, hnode⟩ := exists_members_of_both ht hn
      exact ⟨htype, Untyped.eq_some_of_textField? hnode.name hname⟩
  | .number value, ht, hn => by
      obtain ⟨members, htype, hvalue, hnode⟩ := exists_members_of_both ht hn
      exact ⟨htype, Untyped.eq_some_of_textField? hnode.value hvalue⟩
  | .string value, ht, hn => by
      obtain ⟨members, htype, hvalue, hnode⟩ := exists_members_of_both ht hn
      exact ⟨htype, Untyped.eq_some_of_textField? hnode.value hvalue⟩

theorem describedByList_of_ofJsonList? {js : List Json} {ns : List Untyped} : {ts : List Target} →
    ofJsonList? js = some ts → Untyped.ofJsonList? js = some ns → DescribedByList ts ns
  | [], hts, hns => by
      cases js with
      | nil =>
          rw [Untyped.ofJsonList?] at hns
          exact (Option.some.inj hns).symm
      | cons j js =>
          rw [ofJsonList?] at hts
          obtain ⟨_, _, hcons, -⟩ := exists_cons_of_bind hts
          cases hcons
  | t :: ts, hts, hns => by
      cases js with
      | nil =>
          rw [ofJsonList?] at hts
          cases hts
      | cons j js =>
          rw [ofJsonList?] at hts
          rw [Untyped.ofJsonList?] at hns
          obtain ⟨_, _, hcons, ht, hts⟩ := exists_cons_of_bind hts
          obtain ⟨m, ms, rfl, hm, hms⟩ := exists_cons_of_bind hns
          cases hcons
          exact ⟨m, ms, rfl, describedBy_of_ofJson? ht hm, describedByList_of_ofJsonList? hts hms⟩

end

end Target

end Polish
