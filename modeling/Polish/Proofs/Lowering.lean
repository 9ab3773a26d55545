import Polish.Lowering
import Polish.Proofs.Forest

/-!
Lowering is what it would be if it were written by recursion.

The walk never has a finished subtree in hand.  It puts entries into slots, and
the tree appears only when the slots are put together.  Two descriptions of the
slots connect the two.  `Slots.Open` says how a table looks from a node whose
children are being walked: the rows before its slot, what its slot holds so
far, and the rows after it.  `Stored` says which entries a forest leaves in the
slot of its parent and which rows it adds at the end of the table.

A walk over a forest without programs turns an open table into one with the
stored entries and rows added (`fills_of_programFree`), and putting stored
entries together gives back the forest, lowered tree by tree
(`view_assembleAll_of_stored`).  A walk over any other forest ends at the first
program in it.
-/

namespace Polish

namespace Source

mutual

/-- A tree lowered to an expression. -/
def argument : Source → Target
  | .program body => .program (argumentList body)
  | .number value => .number value
  | .string value => .string value
  | .call name params => .call ⟨name⟩ (argumentList params)

def argumentList : List Source → List Target
  | [] => []
  | t :: ts => t.argument :: argumentList ts

end

theorem argumentList_eq_map (ts : List Source) : argumentList ts = ts.map argument := by
  induction ts with
  | nil => rfl
  | cons t ts ih => simp [argumentList, ih]

/-- A tree lowered to an item of a program, where a call is a statement. -/
def item : Source → Target
  | .call name params => .statement (argument (.call name params))
  | t => t.argument

def literal? : Source → Option Target
  | .number value => some (.number value)
  | .string value => some (.string value)
  | _ => none

end Source

open Source

/-! ### Open tables -/

namespace Slots

/-- The slot of the node `id` holds `row`, and it stands between the rows
`before` and `after`. -/
structure Open (table : Slots) (id : Nat) (before : List (Array Entry)) (row : Array Entry)
    (after : List (Array Entry)) : Prop where
  slots : table.slots = (before ++ row :: after).toArray
  bound : table.bindings[id]? = some before.length

theorem open_initial : initial.Open 0 [] #[] [] where
  slots := rfl
  bound := by simp [initial]

variable {table : Slots} {id : Nat} {before after : List (Array Entry)} {row : Array Entry}

theorem Open.size_eq (h : table.Open id before row after) :
    table.slots.size = before.length + 1 + after.length := by
  simp only [h.slots, List.size_toArray, List.length_append, List.length_cons]
  omega

def Open.slot (h : table.Open id before row after) : Fin table.slots.size :=
  ⟨before.length, table.bound_lt id before.length h.bound⟩

theorem Open.append (h : table.Open id before row after) (entry : Entry)
    (hentry : entry.InRange table.slots.size) :
    (table.append h.slot entry hentry).Open id before (row.push entry) after where
  slots := by
    simp [Slots.append, Open.slot, h.slots, List.modify_eq_take_drop]
  bound := h.bound

/-- A new slot is one more row for the other nodes. -/
theorem Open.reserve_of_ne (h : table.Open id before row after) {new : Nat} (hne : new ≠ id) :
    (table.reserve new).Open id before row (after ++ [#[]]) where
  slots := by simp [Slots.reserve, h.slots]
  bound := by
    simp [Slots.reserve, Std.TreeMap.getElem?_insert, hne, h.bound]

/-- The same rows, seen from another node that has a slot among them. -/
theorem Open.refocus {id' : Nat} {before' after' : List (Array Entry)} {row' : Array Entry}
    (h : table.Open id before row after)
    (hrows : before ++ row :: after = before' ++ row' :: after')
    (hbound : table.bindings[id']? = some before'.length) :
    table.Open id' before' row' after' where
  slots := by rw [h.slots, hrows]
  bound := hbound

end Slots

/-- Walking the forest below a node puts `entries` into the slot of that node
and adds `rows` to the table, where the first row that is added has the number
`m`.  Calls become statements if `statement` is set. -/
inductive Stored : Bool → Nat → List Source → List Entry → List (Array Entry) → Prop
  | nil {statement : Bool} {m : Nat} : Stored statement m [] [] []
  | literal {statement : Bool} {m : Nat} {t : Source} {tree : Target} {rest : List Source}
      {entries : List Entry} {rows : List (Array Entry)} (ht : t.literal? = some tree)
      (h : Stored statement m rest entries rows) :
      Stored statement m (t :: rest) (.node tree :: entries) rows
  | call {statement : Bool} {m : Nat} {name : String} {params rest : List Source}
      {inner entries : List Entry} {rows rows' : List (Array Entry)}
      (hparams : Stored false (m + 1) params inner rows)
      (h : Stored statement (m + 1 + rows.length) rest entries rows') :
      Stored statement m (.call name params :: rest) (.call ⟨name⟩ m statement :: entries)
        (inner.toArray :: (rows ++ rows'))

namespace Slots

/-- A tree as it comes out of a slot in which calls are statements or not. -/
def lowered (statement : Bool) (t : Source) : Target :=
  if statement then t.item else t.argument

theorem lowered_literal {t : Source} {tree : Target} (ht : t.literal? = some tree)
    (statement : Bool) : lowered statement t = tree := by
  cases t <;> cases ht <;> cases statement <;> rfl

theorem lowered_call (statement : Bool) (name : String) (params : List Source) :
    lowered statement (.call name params) =
      if statement then .statement (.call ⟨name⟩ (params.map argument))
      else .call ⟨name⟩ (params.map argument) := by
  rw [lowered, item, argument, argumentList_eq_map]

/-- Stored entries are put together to the trees they come from, and the rows
that were added for them are empty afterwards. -/
theorem assembleAll_of_stored {statement : Bool} {m : Nat} {ts : List Source}
    {es : List Entry} {rows : List (Array Entry)} (h : Stored statement m ts es rows)
    (before after : List (Array Entry)) (hm : before.length = m) (a : Arena)
    (ha : a.slots = (before ++ (rows ++ after)).toArray)
    (hes : ∀ e ∈ es, e.InRange a.slots.size) :
    (a.assembleAll es hes).built = ts.map (lowered statement) ∧
      (a.assembleAll es hes).left.slots =
        (before ++ (rows.map (fun _ => #[]) ++ after)).toArray := by
  induction h generalizing before after a with
  | nil =>
      rw [Arena.assembleAll_nil]
      exact ⟨rfl, ha⟩
  | literal ht _ ih =>
      obtain ⟨hbuilt, hleft⟩ := ih before after hm a ha fun e he => hes e (.tail _ he)
      rw [Arena.assembleAll_node, List.map_cons, lowered_literal ht, ← hbuilt]
      exact ⟨rfl, hleft⟩
  | @call statement m name params rest inner es rows rows' _ _ ihparams ih =>
      have hi : m < a.slots.size := hes _ (.head _) m rfl
      have hrest : ∀ e ∈ es, e.InRange (a.assemble m hi).left.slots.size := fun e he =>
        (a.assemble m hi).size_left ▸ hes e (.tail _ he)
      have hrow : a.slots[m].toList = inner := by
        simp [ha, ← hm]
      -- Taking the row of the call leaves an empty one, which counts as passed for the parameters.
      have hemptied : (a.emptied m hi).slots =
          (before ++ [#[]] ++ (rows ++ (rows' ++ after))).toArray := by
        simp [Arena.emptied, ha, ← hm]
      obtain ⟨hargs, hpassed⟩ := ihparams (before ++ [#[]]) (rows' ++ after) (by simp [hm]) _
        hemptied (hrow ▸ a.inRange_row m hi)
      have hbuilt : (a.assemble m hi).built = params.map argument := by
        simp only [Arena.built_assemble, hrow]
        exact hargs
      have hleft : (a.assemble m hi).left.slots =
          (before ++ [#[]] ++ rows.map (fun _ => #[]) ++ (rows' ++ after)).toArray := by
        simp only [Arena.left_assemble, hrow, hpassed, List.append_assoc]
      have hlength : (before ++ [#[]] ++ rows.map (fun _ => #[])).length = m + 1 + rows.length := by
        rw [List.length_append, List.length_append, List.length_map, hm, List.length_singleton]
      obtain ⟨hothers, hlast⟩ := ih _ after hlength _ hleft hrest
      rw [Arena.assembleAll_call hes hi hrest, List.map_cons, lowered_call, ← hbuilt, ← hothers]
      refine ⟨rfl, hlast.trans ?_⟩
      simp only [List.map_cons, List.map_append, List.append_assoc, List.cons_append,
        List.nil_append]

end Slots

/-! ### One node of the walk -/

namespace Lowering

open Fallible Walk

theorem outcome_append (table : Slots) {entry : Entry} (hentry : entry.InRange table.slots.size)
    (here : Located Source) (parent : Option (Located Source)) (s : Slots) :
    outcome (append table entry hentry here parent) s =
      match table.slotOf? (parent.map (·.id)) with
      | none => (.error (.detached here.node.kind), s)
      | some slot => (.ok (), table.append slot entry hentry) := by
  rw [append]
  cases table.slotOf? (parent.map (·.id)) with
  | none => rfl
  | some slot => rfl

theorem outcome_exit (here : Located Source) (parent : Option (Located Source)) (table : Slots) :
    outcome (visitor.toVisitor.exit here parent) table = (.ok (), table) := by
  obtain ⟨node, id⟩ := here
  cases node <;> rfl

variable {table table' : Slots} {parent : Located Source} {next : Nat}
variable {before after : List (Array Entry)} {row : Array Entry}

theorem outcome_visit_of_enter {t : Source} {above : Option (Located Source)}
    (henter : outcome (visitor.toVisitor.enter ⟨t, next⟩ above) table = (.ok (), table')) :
    outcome (visit visitor.toVisitor t above next) table =
      outcome (visitAll visitor.toVisitor t.children ⟨t, next⟩ (next + 1)) table' := by
  have hchildren : Walkable.children t = .ok t.children := rfl
  rw [outcome_visit, henter]
  simp only [hchildren]
  obtain ⟨_ | _, s⟩ := outcome (visitAll visitor.toVisitor t.children ⟨t, next⟩ (next + 1)) table'
  · rfl
  · simp only [outcome_exit]

theorem outcome_enter_literal {t : Source} {tree : Target} (ht : t.literal? = some tree)
    (h : table.Open parent.id before row after) :
    outcome (visitor.toVisitor.enter ⟨t, next⟩ (some parent)) table =
      (.ok (), table.append h.slot (.node tree) (Entry.inRange_node _ _)) := by
  have henter : outcome (visitor.toVisitor.enter ⟨t, next⟩ (some parent)) table =
      outcome (append table (.node tree) (Entry.inRange_node _ _) ⟨t, next⟩ (some parent))
        table := by
    cases t <;> cases ht <;> rfl
  rw [henter, outcome_append, Option.map_some, Slots.slotOf?_of_bound h.bound]
  rfl

/-- The table after a call is entered: one more slot, and a reference to it in the
slot of the parent. -/
def entered (h : table.Open parent.id before row after) (hid : parent.id < next)
    (name : String) : Slots :=
  (table.reserve next).append (h.reserve_of_ne (Nat.ne_of_gt hid)).slot
    (callEntry table (some parent) name) (inRange_callEntry table (some parent) name next)

theorem outcome_enter_call (h : table.Open parent.id before row after) (hid : parent.id < next)
    (name : String) (params : List Source) :
    outcome (visitor.toVisitor.enter ⟨.call name params, next⟩ (some parent)) table =
      (.ok (), entered h hid name) := by
  show outcome (enterCall ⟨.call name params, next⟩ (some parent)) table = _
  simp only [enterCall, outcome_bind, outcome_get, outcome_set, outcome_append, Option.map_some,
    Slots.slotOf?_of_bound (h.reserve_of_ne (Nat.ne_of_gt hid)).bound]
  rfl

theorem outcome_enter_program (body : List Source) :
    outcome (visitor.toVisitor.enter ⟨.program body, next⟩ (some parent)) table =
      (.error (.detached .program), table) := rfl

theorem outcome_visitAll_literal {t : Source} {tree : Target} (ht : t.literal? = some tree)
    (rest : List Source) (h : table.Open parent.id before row after) :
    outcome (visitAll visitor.toVisitor (t :: rest) parent next) table =
      outcome (visitAll visitor.toVisitor rest parent (next + 1))
        (table.append h.slot (.node tree) (Entry.inRange_node _ _)) := by
  have hleaf : t.children = [] := by cases t <;> cases ht <;> rfl
  rw [outcome_visitAll_cons, outcome_visit_of_enter (outcome_enter_literal ht h), hleaf,
    outcome_visitAll_nil]

theorem outcome_visitAll_call (h : table.Open parent.id before row after) (hid : parent.id < next)
    (name : String) (params rest : List Source) :
    outcome (visitAll visitor.toVisitor (.call name params :: rest) parent next) table =
      match outcome (visitAll visitor.toVisitor params ⟨.call name params, next⟩ (next + 1))
        (entered h hid name) with
      | (.error e, s) => (.error e, s)
      | (.ok next', s) => outcome (visitAll visitor.toVisitor rest parent next') s := by
  rw [outcome_visitAll_cons, outcome_visit_of_enter (outcome_enter_call h hid name params)]
  simp only [children]
  generalize outcome (visitAll visitor.toVisitor params _ _) _ = result
  obtain ⟨_ | _, s⟩ := result
  · rfl
  · rfl

theorem open_call (h : table.Open parent.id before row after) (hid : parent.id < next)
    (name : String) :
    (entered h hid name).Open next
      (before ++ row.push (callEntry table (some parent) name) :: after) #[] [] := by
  refine ((h.reserve_of_ne (Nat.ne_of_gt hid)).append _ _).refocus (by simp) ?_
  have hlength : table.slots.size =
      (before ++ row.push (callEntry table (some parent) name) :: after).length := by
    rw [h.size_eq, List.length_append, List.length_cons]
    omega
  rw [← hlength]
  exact Std.TreeMap.getElem?_insert_self

/-- The table after the parameters of a call, seen again from the parent of the
call: its slot has the entry of the call, and there are more rows after it. -/
theorem open_parent {name : String} {inner : Array Entry} {rows : List (Array Entry)}
    (h : table.Open parent.id before row after) (hid : parent.id < next)
    (hopen : table'.Open next
      (before ++ row.push (callEntry table (some parent) name) :: after) inner rows)
    (hframe : ∀ i < next + 1, table'.bindings[i]? = (entered h hid name).bindings[i]?) :
    table'.Open parent.id before (row.push (callEntry table (some parent) name))
      (after ++ inner :: rows) := by
  refine hopen.refocus (by simp) ?_
  rw [hframe _ (by omega)]
  exact (h.reserve_of_ne (Nat.ne_of_gt hid)).bound

/-- Walking the forest `ts` below `parent` ends well, stores the forest in the
slot of `parent`, and leaves the bindings of the nodes met before as they are. -/
def Fills (ts : List Source) (parent : Located Source) (next : Nat) (table : Slots)
    (before : List (Array Entry)) (row : Array Entry) (after : List (Array Entry)) : Prop :=
  ∃ table' next' entries rows,
    outcome (visitAll visitor.toVisitor ts parent next) table = (.ok next', table') ∧
      next ≤ next' ∧
      Stored (parent.node.kind != .callExpression) table.slots.size ts entries rows ∧
      table'.Open parent.id before (row ++ entries.toArray) (after ++ rows) ∧
      ∀ i < next, table'.bindings[i]? = table.bindings[i]?

theorem Fills.literal {t : Source} {tree : Target} {rest : List Source}
    (ht : t.literal? = some tree) (h : table.Open parent.id before row after)
    (hrest : Fills rest parent (next + 1)
      (table.append h.slot (.node tree) (Entry.inRange_node _ _)) before
      (row.push (.node tree)) after) :
    Fills (t :: rest) parent next table before row after := by
  obtain ⟨table', next', entries, rows, hrun, hle, hstored, hopen, hframe⟩ := hrest
  refine ⟨table', next', .node tree :: entries, rows, ?_, by omega, .literal ht ?_, ?_, ?_⟩
  · rw [outcome_visitAll_literal ht rest h, hrun]
  · simpa [Slots.append] using hstored
  · simpa using hopen
  · intro i hi
    exact hframe i (by omega)

theorem Fills.call {name : String} {params rest : List Source}
    (h : table.Open parent.id before row after) (hid : parent.id < next)
    (hparams : Fills params ⟨.call name params, next⟩ (next + 1) (entered h hid name)
      (before ++ row.push (callEntry table (some parent) name) :: after) #[] [])
    (hrest : ∀ table' next' after', next < next' →
      table'.Open parent.id before (row.push (callEntry table (some parent) name)) after' →
      Fills rest parent next' table' before (row.push (callEntry table (some parent) name))
        after') :
    Fills (.call name params :: rest) parent next table before row after := by
  obtain ⟨table₁, next₁, inner, rows, hrun₁, hle₁, hstored₁, hopen₁, hframe₁⟩ := hparams
  -- The parameters only added rows, so the slot of the parent can be found again.
  have hparent := open_parent h hid (by simpa using hopen₁) hframe₁
  obtain ⟨table₂, next₂, entries, rows', hrun₂, hle₂, hstored₂, hopen₂, hframe₂⟩ :=
    hrest table₁ next₁ _ (by omega) hparent
  have hsize : table₁.slots.size = table.slots.size + 1 + rows.length := by
    rw [hparent.size_eq, h.size_eq, List.length_append, List.length_cons]
    omega
  rw [hsize] at hstored₂
  refine ⟨table₂, next₂, callEntry table (some parent) name :: entries,
    inner.toArray :: (rows ++ rows'), ?_, by omega, ?_, ?_, ?_⟩
  · rw [outcome_visitAll_call h hid, hrun₁]
    exact hrun₂
  · refine .call ?_ hstored₂
    simpa [entered, Slots.append, Slots.reserve, kind] using hstored₁
  · simpa using hopen₂
  · intro i hi
    have hne : next ≠ i := by omega
    rw [hframe₂ i (by omega), hframe₁ i (by omega)]
    simp [entered, Slots.append, Slots.reserve, Std.TreeMap.getElem?_insert, hne]

theorem fills_of_programFree (ts : List Source) (hfree : programFreeList ts = true)
    (h : table.Open parent.id before row after) (hid : parent.id < next) :
    Fills ts parent next table before row after := by
  induction ts using forest_induction generalizing table parent next before row after with
  | nil =>
      refine ⟨table, next, [], [], outcome_visitAll_nil .., Nat.le_refl _, .nil, ?_, fun _ _ => rfl⟩
      simpa using h
  | program => simp [programFreeList, programFree] at hfree
  | number value rest ih =>
      refine .literal rfl h (ih ?_ (h.append _ _) (by omega))
      simpa [programFreeList, programFree] using hfree
  | string value rest ih =>
      refine .literal rfl h (ih ?_ (h.append _ _) (by omega))
      simpa [programFreeList, programFree] using hfree
  | call name params rest ihparams ihrest =>
      obtain ⟨hparams, hrest⟩ :
          programFreeList params = true ∧ programFreeList rest = true := by
        simpa [programFreeList, programFree] using hfree
      exact .call h hid (ihparams hparams (open_call h hid _) (by simp))
        fun table' next' after' hlt hopen => ihrest hrest hopen (by omega)

/-- Walking any other forest ends at the first program in it. -/
theorem outcome_visitAll_of_not_programFree (ts : List Source)
    (hnot : programFreeList ts = false) (h : table.Open parent.id before row after)
    (hid : parent.id < next) :
    (outcome (visitAll visitor.toVisitor ts parent next) table).1 =
      .error (.detached .program) := by
  induction ts using forest_induction generalizing table parent next before row after with
  | nil => simp [programFreeList] at hnot
  | program body rest _ _ => rw [outcome_visitAll_cons, outcome_visit, outcome_enter_program]
  | number value rest ih =>
      rw [outcome_visitAll_literal rfl rest h]
      refine ih ?_ (h.append _ _) (by omega)
      simpa [programFreeList, programFree] using hnot
  | string value rest ih =>
      rw [outcome_visitAll_literal rfl rest h]
      refine ih ?_ (h.append _ _) (by omega)
      simpa [programFreeList, programFree] using hnot
  | call name params rest ihparams ihrest =>
      rw [outcome_visitAll_call h hid]
      have hopen := open_call h hid name
      have hlt : (⟨.call name params, next⟩ : Located Source).id < next + 1 := Nat.lt_succ_self _
      -- The first program is among the parameters, or they are walked to their end.
      cases hparams : programFreeList params with
      | false =>
          have hfail := ihparams hparams hopen hlt
          generalize outcome (visitAll visitor.toVisitor params _ _) _ = result at hfail ⊢
          obtain ⟨ending, s⟩ := result
          obtain rfl : ending = .error (.detached .program) := hfail
          rfl
      | true =>
          obtain ⟨table₁, next₁, inner, rows, hrun, hle, -, hopen₁, hframe⟩ :=
            fills_of_programFree params hparams hopen hlt
          rw [hrun]
          refine ihrest ?_ (open_parent h hid (by simpa using hopen₁) hframe) (by omega)
          simpa [programFreeList, programFree, hparams] using hnot

/-! ### Whole trees -/

theorem outcome_visit_program (body : List Source) (table : Slots) :
    outcome (visit visitor.toVisitor (.program body) none 0) table =
      outcome (visitAll visitor.toVisitor body ⟨.program body, 0⟩ 1) table :=
  outcome_visit_of_enter rfl

theorem outcome_visit_root {t : Source} (ht : t.kind ≠ .program) (table : Slots) :
    (outcome (visit visitor.toVisitor t none 0) table).1 = .error (.detached t.kind) := by
  have henter : (outcome (visitor.toVisitor.enter ⟨t, 0⟩ none) table).1 =
      .error (.detached t.kind) := by
    cases t with
    | program => exact absurd rfl ht
    | _ => rfl
  rw [outcome_visit]
  generalize outcome (visitor.toVisitor.enter ⟨t, 0⟩ none) table = result at henter ⊢
  obtain ⟨ending, s⟩ := result
  obtain rfl : ending = .error (.detached t.kind) := henter
  rfl

end Lowering

open Lowering Slots

theorem lower_of_visit_error {t : Source} {e : WalkError}
    (h : (Fallible.outcome (Walk.visit visitor.toVisitor t none 0) initial).1 = .error e) :
    lower t = .error e := by
  simp only [lower, SourceVisitor.walk, walk]
  generalize Fallible.outcome (Walk.visit visitor.toVisitor t none 0) initial = result at h ⊢
  obtain ⟨ending, s⟩ := result
  obtain rfl : ending = .error e := h
  rfl

theorem built_of_stored {body : List Source} {es : List Entry} {rows : List (Array Entry)}
    (h : Stored true 1 body es rows) {table : Slots}
    (hslots : table.slots = (es.toArray :: rows).toArray) :
    table.assembled.built = body.map item := by
  have hpos := table.size_pos
  have hrow : table.slots[0].toList = es := by
    simp [hslots]
  have hemptied : (table.emptied 0 table.size_pos).slots = ([#[]] ++ (rows ++ [])).toArray := by
    simp [Arena.emptied, hslots]
  simp only [assembled, Arena.built_assemble, hrow]
  exact (assembleAll_of_stored h [#[]] [] rfl _ hemptied _).1

theorem lower_program_of_programFree {body : List Source} (h : programFreeList body = true) :
    lower (.program body) = .ok (.program (body.map item)) := by
  have hfills : Fills body ⟨.program body, 0⟩ 1 initial [] #[] [] :=
    fills_of_programFree body h open_initial Nat.zero_lt_one
  obtain ⟨table, next, entries, rows, hrun, -, hstored, hopen, -⟩ := hfills
  simp only [lower, SourceVisitor.walk, walk, outcome_visit_program, hrun]
  show Except.ok table.finish = _
  rw [finish, built_of_stored hstored (by simpa using hopen.slots)]

theorem lower_program_of_not_programFree {body : List Source}
    (h : programFreeList body = false) :
    lower (.program body) = .error (.detached .program) := by
  refine lower_of_visit_error ?_
  rw [outcome_visit_program]
  exact outcome_visitAll_of_not_programFree body h open_initial Nat.zero_lt_one

theorem lower_of_not_program {t : Source} (h : t.kind ≠ .program) :
    lower t = .error (.detached t.kind) :=
  lower_of_visit_error (outcome_visit_root h initial)

theorem lower_eq_ok_iff {t : Source} {u : Target} :
    lower t = .ok u ↔
      ∃ body, t = .program body ∧ programFreeList body = true ∧ u = .program (body.map item) := by
  constructor
  · intro h
    by_cases ht : t.kind = .program
    · cases t with
      | program body =>
          cases hfree : programFreeList body with
          | false =>
              rw [lower_program_of_not_programFree hfree] at h
              cases h
          | true =>
              rw [lower_program_of_programFree hfree] at h
              exact ⟨body, rfl, hfree, (Except.ok.inj h).symm⟩
      | number value => cases ht
      | string value => cases ht
      | call name params => cases ht
    · rw [lower_of_not_program ht] at h
      cases h
  · rintro ⟨body, rfl, hfree, rfl⟩
    exact lower_program_of_programFree hfree

/-- On every tree, well shaped or not, lowering is the rewriting of its items by
recursion: a program with no program below it has its items lowered one by one,
any other root is refused for its own kind, and so is every program inside. -/
theorem lower_eq_recursive (t : Source) :
    (∀ body, t = .program body → (∀ d, Below d t → d.kind ≠ .program) →
      lower t = .ok (.program (body.map item))) ∧
    (t.kind ≠ .program → lower t = .error (.detached t.kind)) ∧
    (t.kind = .program → (∃ d, Below d t ∧ d.kind = .program) →
      lower t = .error (.detached .program)) := by
  refine ⟨?_, lower_of_not_program, ?_⟩
  · rintro body rfl hbelow
    exact lower_program_of_programFree ((programFreeList_children_iff _).mpr hbelow)
  · rintro ht ⟨d, hd, hprogram⟩
    cases t with
    | program body =>
        refine lower_program_of_not_programFree (Bool.eq_false_iff.mpr fun hfree => ?_)
        exact (programFreeList_children_iff (.program body)).mp hfree d hd hprogram
    | number value => cases ht
    | string value => cases ht
    | call name params => cases ht

/-- The three cases at trees of their own: a program whose calls are nested and
stand beside literals, a call as root, and a program inside a call. -/
theorem lower_eq_recursive_shapes :
    lower (.program [.string "x", .call "f" [.number "1", .call "g" [.call "h" []]], .number "2"]) =
        .ok (.program [.string "x", .statement (.call ⟨"f"⟩ [.number "1",
          .call ⟨"g"⟩ [.call ⟨"h"⟩ []]]), .number "2"]) ∧
      lower (.call "f" [.program []]) = .error (.detached .callExpression) ∧
      lower (.program [.number "1", .call "f" [.string "x", .program []]]) =
        .error (.detached .program) := by
  refine ⟨(lower_eq_recursive _).1 _ rfl ?_, (lower_eq_recursive _).2.1 ?_,
    (lower_eq_recursive _).2.2 rfl ⟨.program [], ?_, rfl⟩⟩
  · exact (programFreeList_children_iff _).mp rfl
  · decide
  · exact .deeper (.tail _ (.head _)) (.child (.tail _ (.head _)))

end Polish
