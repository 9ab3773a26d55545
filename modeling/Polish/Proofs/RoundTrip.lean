import Polish.Proofs.Description
import Polish.Proofs.JsonText
import Polish.Token

/-!
Trees and tokens survive being written as JSON.

Reading is the inverse of writing in each of the four forms: source trees,
target trees, untyped nodes and tokens.  For the trees this goes through the
members of an object, where `FieldsIn` says what a reader finds; here it is
shown that finding it is enough.  An untyped node has a member for each field
that is there and none for the others, so a list that is empty and a list that
is absent are written differently.

The two vocabularies have no JSON of their own.  What is written for a tree is
what is written for its untyped form, member by member in one order, so the
texts are the same and one reader may take what the other writer wrote.
-/

namespace Polish

theorem Identifier.ofJson?_toJson (i : Identifier) : ofJson? i.toJson = some i := rfl

theorem Source.ofJson?_of_fieldsIn {members : List (String × Json)} {t : Source}
    (hkind : Json.kind? members = some t.kind) (h : t.FieldsIn members) :
    ofJson? (.object members) = some t := by
  rw [ofJson?, hkind]
  cases t with
  | program body =>
      obtain ⟨items, hitems, hbody⟩ := h
      simp only [kind]
      split <;> simp_all
  | number value => simp_all [kind, FieldsIn]
  | string value => simp_all [kind, FieldsIn]
  | call name params =>
      obtain ⟨hname, items, hitems, hparams⟩ := h
      simp only [kind]
      split <;> simp_all

theorem Target.ofJson?_of_fieldsIn {members : List (String × Json)} {t : Target}
    (hkind : Json.kind? members = some t.kind) (h : t.FieldsIn members) :
    ofJson? (.object members) = some t := by
  rw [ofJson?, hkind]
  cases t with
  | program body =>
      obtain ⟨items, hitems, hbody⟩ := h
      simp only [kind]
      split <;> simp_all
  | statement expression =>
      obtain ⟨inner, hinner, hexpression⟩ := h
      simp only [kind]
      split <;> simp_all
  | call callee arguments =>
      obtain ⟨⟨inner, hinner, hcallee⟩, items, hitems, harguments⟩ := h
      simp only [kind]
      split <;> simp_all
  | identifier name => simp_all [kind, FieldsIn]
  | number value => simp_all [kind, FieldsIn]
  | string value => simp_all [kind, FieldsIn]

theorem Untyped.ofJson?_of_fieldsIn {members : List (String × Json)} {n : Untyped}
    (h : n.FieldsIn members) : ofJson? (.object members) = some n := by
  rw [ofJson?, h.type, h.value, h.name, h.params, h.body, h.expression, h.callee, h.arguments]
  cases n
  rfl

namespace Source

mutual

theorem ofJson?_toJson : (t : Source) → ofJson? t.toJson = some t
  | .program body => ofJson?_of_fieldsIn rfl ⟨_, rfl, ofJsonList?_toJsonList body⟩
  | .number _ => ofJson?_of_fieldsIn rfl rfl
  | .string _ => ofJson?_of_fieldsIn rfl rfl
  | .call _ params => ofJson?_of_fieldsIn rfl ⟨rfl, _, rfl, ofJsonList?_toJsonList params⟩

theorem ofJsonList?_toJsonList : (ts : List Source) → ofJsonList? (toJsonList ts) = some ts
  | [] => by rw [toJsonList, ofJsonList?]
  | t :: ts => by
      rw [toJsonList, ofJsonList?, ofJson?_toJson t, ofJsonList?_toJsonList ts]
      rfl

end

end Source

namespace Target

mutual

theorem ofJson?_toJson : (t : Target) → ofJson? t.toJson = some t
  | .program body => ofJson?_of_fieldsIn rfl ⟨_, rfl, ofJsonList?_toJsonList body⟩
  | .statement expression => ofJson?_of_fieldsIn rfl ⟨_, rfl, ofJson?_toJson expression⟩
  | .call callee arguments =>
      ofJson?_of_fieldsIn rfl
        ⟨⟨_, rfl, callee.ofJson?_toJson⟩, _, rfl, ofJsonList?_toJsonList arguments⟩
  | .identifier _ => ofJson?_of_fieldsIn rfl rfl
  | .number _ => ofJson?_of_fieldsIn rfl rfl
  | .string _ => ofJson?_of_fieldsIn rfl rfl

theorem ofJsonList?_toJsonList : (ts : List Target) → ofJsonList? (toJsonList ts) = some ts
  | [] => by rw [toJsonList, ofJsonList?]
  | t :: ts => by
      rw [toJsonList, ofJsonList?, ofJson?_toJson t, ofJsonList?_toJsonList ts]
      rfl

end

end Target

/-! ### Untyped nodes -/

namespace Untyped

/-- Induction over nodes: what is proved of a node may use the same of the nodes
in all of its fields. -/
@[elab_as_elim] theorem node_induction {motive : Untyped → Prop}
    (node : ∀ n : Untyped, (∀ ns ∈ n.params, ∀ m ∈ ns, motive m) →
      (∀ ns ∈ n.body, ∀ m ∈ ns, motive m) → (∀ m ∈ n.expression, motive m) →
      (∀ m ∈ n.callee, motive m) → (∀ ns ∈ n.arguments, ∀ m ∈ ns, motive m) → motive n)
    (n : Untyped) : motive n :=
  match n with
  | ⟨_, _, _, params, body, expression, callee, arguments⟩ =>
      node _ (fun ns (_hns : params = some ns) m _hm => node_induction node m)
        (fun ns (_hns : body = some ns) m _hm => node_induction node m)
        (fun m (_hm : expression = some m) => node_induction node m)
        (fun m (_hm : callee = some m) => node_induction node m)
        (fun ns (_hns : arguments = some ns) m _hm => node_induction node m)
termination_by sizeOf n
decreasing_by
  · have := List.sizeOf_lt_of_mem _hm
    simp only [_hns, mk.sizeOf_spec, Option.some.sizeOf_spec]
    omega
  · have := List.sizeOf_lt_of_mem _hm
    simp only [_hns, mk.sizeOf_spec, Option.some.sizeOf_spec]
    omega
  · simp only [_hm, mk.sizeOf_spec, Option.some.sizeOf_spec]
    omega
  · simp only [_hm, mk.sizeOf_spec, Option.some.sizeOf_spec]
    omega
  · have := List.sizeOf_lt_of_mem _hm
    simp only [_hns, mk.sizeOf_spec, Option.some.sizeOf_spec]
    omega

def Field.all : List Field :=
  [.value, .name, .params, .body, .expression, .callee, .arguments]

def member? (n : Untyped) : Field → Option Json
  | .value => n.value.map .string
  | .name => n.name.map .string
  | .params => n.params.map fun ns => .array (toJsonList ns)
  | .body => n.body.map fun ns => .array (toJsonList ns)
  | .expression => n.expression.map toJson
  | .callee => n.callee.map toJson
  | .arguments => n.arguments.map fun ns => .array (toJsonList ns)

def members (n : Untyped) : List (String × Json) :=
  ("type", .string n.type) :: Field.all.flatMap fun f => ((n.member? f).map (f.label, ·)).toList

theorem toJsonText_eq (f : Field) (o : Option String) :
    toJsonText f o = ((o.map Json.string).map (f.label, ·)).toList := by
  cases o <;> rfl

theorem toJsonNode_eq (f : Field) (o : Option Untyped) :
    toJsonNode f o = ((o.map toJson).map (f.label, ·)).toList := by
  cases o <;> rfl

theorem toJsonNodes_eq (f : Field) (o : Option (List Untyped)) :
    toJsonNodes f o = ((o.map fun ns => Json.array (toJsonList ns)).map (f.label, ·)).toList := by
  cases o <;> rfl

theorem toJson_eq (n : Untyped) : n.toJson = .object n.members := by
  obtain ⟨type, value, name, params, body, expression, callee, arguments⟩ := n
  simp only [toJson, toJsonText_eq, toJsonNode_eq, toJsonNodes_eq, members, member?, Field.all,
    List.flatMap_cons, List.flatMap_nil, List.append_nil, List.append_assoc]

theorem lookup_toList (f g : Field) (o : Option Json) :
    ((o.map (g.label, ·)).toList).lookup f.label = if f = g then o else none := by
  have hlabel : (f.label == g.label) = decide (f = g) := by
    cases f <;> cases g <;> rfl
  cases o with
  | none => simp
  | some j =>
      rw [Option.map_some, Option.toList_some, List.lookup_cons, hlabel]
      by_cases h : f = g <;> simp [h]

theorem lookup_members (n : Untyped) (f : Field) : n.members.lookup f.label = n.member? f := by
  have htype : (f.label == "type") = false := by cases f <;> rfl
  rw [members, List.lookup_cons, htype]
  simp only [Field.all, List.flatMap_cons, List.flatMap_nil, List.lookup_append, lookup_toList]
  cases f <;> simp

variable {ms : List (String × Json)} {f : Field}

theorem textField?_of_lookup {o : Option String} (h : ms.lookup f.label = o.map .string) :
    textField? ms f = some o := by
  cases o with
  | none => simp [textField?, Json.isAbsent, h]
  | some s => simp [textField?, Json.isAbsent, Json.text?, h]

theorem nodeField?_of_lookup {o : Option Untyped} (h : ms.lookup f.label = o.map toJson)
    (hread : ∀ n ∈ o, ofJson? n.toJson = some n) : nodeField? ms f = some o := by
  rw [nodeField?]
  cases o with
  | none => split <;> simp_all
  | some n =>
      have hn := hread n rfl
      rw [toJson_eq] at hn
      split <;> simp_all [toJson_eq]

theorem ofJsonList?_toJsonList {ns : List Untyped}
    (h : ∀ n ∈ ns, ofJson? n.toJson = some n) : ofJsonList? (toJsonList ns) = some ns := by
  induction ns with
  | nil => rw [toJsonList, ofJsonList?]
  | cons n ns ih =>
      rw [List.forall_mem_cons] at h
      rw [toJsonList, ofJsonList?, h.1, ih h.2]
      rfl

theorem nodesField?_of_lookup {o : Option (List Untyped)}
    (h : ms.lookup f.label = o.map fun ns => .array (toJsonList ns))
    (hread : ∀ ns ∈ o, ∀ n ∈ ns, ofJson? n.toJson = some n) : nodesField? ms f = some o := by
  rw [nodesField?]
  cases o with
  | none => simp [Json.isAbsent, h]
  | some ns =>
      have hitems : Json.items? ms f.label = some (toJsonList ns) := by
        rw [Json.items?_eq_some_iff, h, Option.map_some]
      have hns := ofJsonList?_toJsonList (hread ns rfl)
      simp only [Json.isAbsent, h, Option.map_some, Bool.false_eq_true, if_false]
      split <;> simp_all

theorem ofJson?_toJson (n : Untyped) : ofJson? n.toJson = some n := by
  induction n using node_induction with
  | node n ihparams ihbody ihexpression ihcallee iharguments =>
      rw [toJson_eq]
      refine ofJson?_of_fieldsIn ⟨rfl, ?_, ?_, ?_, ?_, ?_, ?_, ?_⟩
      · exact textField?_of_lookup (lookup_members n .value)
      · exact textField?_of_lookup (lookup_members n .name)
      · exact nodesField?_of_lookup (lookup_members n .params) ihparams
      · exact nodesField?_of_lookup (lookup_members n .body) ihbody
      · exact nodeField?_of_lookup (lookup_members n .expression) ihexpression
      · exact nodeField?_of_lookup (lookup_members n .callee) ihcallee
      · exact nodesField?_of_lookup (lookup_members n .arguments) iharguments

mutual

theorem toJson_ofSource : (t : Source) → (ofSource t).toJson = t.toJson
  | .program body => by
      rw [Source.toJson, ← toJsonList_ofSources body]
      rfl
  | .number _ => rfl
  | .string _ => rfl
  | .call _ params => by
      rw [Source.toJson, ← toJsonList_ofSources params]
      rfl

theorem toJsonList_ofSources : (ts : List Source) →
    toJsonList (ofSources ts) = Source.toJsonList ts
  | [] => rfl
  | t :: ts => by
      rw [ofSources, toJsonList, toJson_ofSource t, toJsonList_ofSources ts, Source.toJsonList]

end

mutual

theorem toJson_ofTarget : (t : Target) → (ofTarget t).toJson = t.toJson
  | .program body => by
      rw [Target.toJson, ← toJsonList_ofTargets body]
      rfl
  | .statement expression => by
      rw [Target.toJson, ← toJson_ofTarget expression]
      rfl
  | .call _ arguments => by
      rw [Target.toJson, ← toJsonList_ofTargets arguments]
      rfl
  | .identifier _ => rfl
  | .number _ => rfl
  | .string _ => rfl

theorem toJsonList_ofTargets : (ts : List Target) →
    toJsonList (ofTargets ts) = Target.toJsonList ts
  | [] => rfl
  | t :: ts => by
      rw [ofTargets, toJsonList, toJson_ofTarget t, toJsonList_ofTargets ts, Target.toJsonList]

end

theorem ofJson?_source_toJson (t : Source) : ofJson? t.toJson = some (ofSource t) := by
  rw [← toJson_ofSource, ofJson?_toJson]

theorem ofJson?_target_toJson (t : Target) : ofJson? t.toJson = some (ofTarget t) := by
  rw [← toJson_ofTarget, ofJson?_toJson]

/-! ### Texts -/

theorem toJsonList_eq_map (ns : List Untyped) : toJsonList ns = ns.map toJson := by
  induction ns with
  | nil => rfl
  | cons n ns ih => rw [toJsonList, ih, List.map_cons]

theorem textual_array_toJsonList {ns : List Untyped} (h : ∀ n ∈ ns, n.toJson.Textual) :
    (Json.array (toJsonList ns)).Textual := by
  rw [toJsonList_eq_map]
  exact .array (List.forall_mem_map.mpr h)

theorem textual_toJson (n : Untyped) : n.toJson.Textual := by
  induction n using node_induction with
  | node n ihparams ihbody ihexpression ihcallee iharguments =>
      rw [toJson_eq]
      -- One field at a time, so that the members need no cases of their own.
      have hmember : ∀ f, ∀ j ∈ n.member? f, j.Textual := by
        intro f j hj
        cases f with
        | value =>
            obtain ⟨s, -, rfl⟩ := Option.map_eq_some_iff.mp hj
            exact .string s
        | name =>
            obtain ⟨s, -, rfl⟩ := Option.map_eq_some_iff.mp hj
            exact .string s
        | params =>
            obtain ⟨ns, hns, rfl⟩ := Option.map_eq_some_iff.mp hj
            exact textual_array_toJsonList (ihparams ns hns)
        | body =>
            obtain ⟨ns, hns, rfl⟩ := Option.map_eq_some_iff.mp hj
            exact textual_array_toJsonList (ihbody ns hns)
        | expression =>
            obtain ⟨m, hm, rfl⟩ := Option.map_eq_some_iff.mp hj
            exact ihexpression m hm
        | callee =>
            obtain ⟨m, hm, rfl⟩ := Option.map_eq_some_iff.mp hj
            exact ihcallee m hm
        | arguments =>
            obtain ⟨ns, hns, rfl⟩ := Option.map_eq_some_iff.mp hj
            exact textual_array_toJsonList (iharguments ns hns)
      refine .object (List.forall_mem_cons.mpr ⟨.string n.type, ?_⟩)
      intro m hm
      obtain ⟨f, -, hf⟩ := List.mem_flatMap.mp hm
      obtain ⟨j, hj, rfl⟩ := Option.map_eq_some_iff.mp (Option.mem_toList.mp hf)
      exact hmember f j hj

end Untyped

namespace Token

theorem ofJson?_toJson (t : Token) : ofJson? t.toJson = some t := by
  obtain ⟨kind, text⟩ := t
  cases kind <;> rfl

theorem textual_toJson (t : Token) : t.toJson.Textual := by
  refine .object ?_
  simp only [List.forall_mem_cons, List.not_mem_nil, false_implies, implies_true, and_true]
  exact ⟨.string _, .string _⟩

end Token

/-- What is written is read back, and no two values have one text. -/
structure Json.RoundTrip {α : Type} (write : α → Json) (read : Json → Option α) : Prop where
  read_write : ∀ a, read (write a) = some a
  text_injective : ∀ a b, (write a).render = (write b).render → a = b

theorem injective_of_read {α β : Type} {w : α → β} {r : β → Option α}
    (h : ∀ a, r (w a) = some a) : Function.Injective w := by
  intro a b hab
  have hsome : some a = some b := by rw [← h a, hab, h b]
  exact Option.some.inj hsome

theorem Json.RoundTrip.of_textual {α : Type} {write : α → Json} {read : Json → Option α}
    (hread : ∀ a, read (write a) = some a) (htext : ∀ a, (write a).Textual) :
    RoundTrip write read where
  read_write := hread
  text_injective a b h := injective_of_read hread ((htext a).eq_of_render_eq (htext b) h)

theorem Untyped.ofSource_injective : Function.Injective ofSource := by
  apply injective_of_read (r := fun n => Source.ofJson? n.toJson)
  intro t
  rw [toJson_ofSource, Source.ofJson?_toJson]

theorem Untyped.ofTarget_injective : Function.Injective ofTarget := by
  apply injective_of_read (r := fun n => Target.ofJson? n.toJson)
  intro t
  rw [toJson_ofTarget, Target.ofJson?_toJson]

/-- Everything that is written as JSON is read back in its own form.  A typed
tree has the text of its untyped form, is read as that form too, and is
determined by it. -/
theorem json_roundTrip :
    Json.RoundTrip Source.toJson Source.ofJson? ∧ Json.RoundTrip Target.toJson Target.ofJson? ∧
      Json.RoundTrip Untyped.toJson Untyped.ofJson? ∧ Json.RoundTrip Token.toJson Token.ofJson? ∧
      (∀ t : Source, t.toJson.render = (Untyped.ofSource t).toJson.render ∧
        Untyped.ofJson? t.toJson = some (Untyped.ofSource t)) ∧
      (∀ t : Target, t.toJson.render = (Untyped.ofTarget t).toJson.render ∧
        Untyped.ofJson? t.toJson = some (Untyped.ofTarget t)) ∧
      Function.Injective Untyped.ofSource ∧ Function.Injective Untyped.ofTarget := by
  have hsource : ∀ t : Source, t.toJson.Textual := fun t =>
    Untyped.toJson_ofSource t ▸ Untyped.textual_toJson _
  have htarget : ∀ t : Target, t.toJson.Textual := fun t =>
    Untyped.toJson_ofTarget t ▸ Untyped.textual_toJson _
  refine ⟨.of_textual Source.ofJson?_toJson hsource, .of_textual Target.ofJson?_toJson htarget,
    .of_textual Untyped.ofJson?_toJson Untyped.textual_toJson,
    .of_textual Token.ofJson?_toJson Token.textual_toJson, fun t => ⟨?_, ?_⟩, fun t => ⟨?_, ?_⟩,
    Untyped.ofSource_injective, Untyped.ofTarget_injective⟩
  · rw [Untyped.toJson_ofSource]
  · exact Untyped.ofJson?_source_toJson t
  · rw [Untyped.toJson_ofTarget]
  · exact Untyped.ofJson?_target_toJson t

/-- A list that is there and empty is not taken for an absent one: not in the
text, and not by the reader. -/
theorem json_roundTrip_empty_list :
    ({ type := "CallExpression", params := some [] } : Untyped).toJson.render ≠
        ({ type := "CallExpression" } : Untyped).toJson.render ∧
      Untyped.ofJson? ({ type := "CallExpression", params := some [] } : Untyped).toJson =
        some { type := "CallExpression", params := some [] } := by
  have h := json_roundTrip.2.2.1
  refine ⟨fun htext => ?_, h.read_write _⟩
  have hnodes := h.text_injective _ _ htext
  cases congrArg Untyped.params hnodes

end Polish
