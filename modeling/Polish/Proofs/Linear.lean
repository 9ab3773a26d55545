import Polish.Proofs.Forest
import Polish.Source.Read

/-!
The tokens of a forest.  `Linear body ts` says that the tokens `ts` spell the
trees of `body` in order: a literal is one token, and a call is an opening
bracket, its name, its parameters and a closing bracket.  Brackets are told by
their kind, so their texts are free.

Reading is the inverse of this relation.  `Linear.readArguments_eq` and
`Linear.readBody_append` say that what is spelled is read, whatever tokens
follow, and `linear_of_readBody` says that nothing else is.
-/

namespace Polish

namespace Source

/-- The tokens `ts` spell the trees of `body` in order. -/
inductive Linear : List Source → List Token → Prop
  | nil : Linear [] []
  | number {value : String} {body : List Source} {ts : List Token} (h : Linear body ts) :
      Linear (.number value :: body) (⟨.number, value⟩ :: ts)
  | string {value : String} {body : List Source} {ts : List Token} (h : Linear body ts) :
      Linear (.string value :: body) (⟨.string, value⟩ :: ts)
  | call {name l r : String} {params body : List Source} {us ts : List Token}
      (hparams : Linear params us) (h : Linear body ts) :
      Linear (.call name params :: body)
        (⟨.opening, l⟩ :: ⟨.name, name⟩ :: (us ++ ⟨.closing, r⟩ :: ts))

theorem Linear.append {a b : List Source} {us ts : List Token} (ha : Linear a us)
    (hb : Linear b ts) : Linear (a ++ b) (us ++ ts) := by
  induction ha with
  | nil => exact hb
  | number _ ih => exact .number ih
  | string _ ih => exact .string ih
  | call hparams _ _ ih => simpa using Linear.call hparams ih

theorem Linear.programFreeList {body : List Source} {ts : List Token} (h : Linear body ts) :
    programFreeList body = true := by
  induction h with
  | nil => rfl
  | number _ ih => simpa [Source.programFreeList, programFree] using ih
  | string _ ih => simpa [Source.programFreeList, programFree] using ih
  | call _ _ ihparams ih => simpa [Source.programFreeList, programFree] using ⟨ihparams, ih⟩

theorem view_readExpression_number (value : String) (rest : List Token) :
    (readExpression (⟨.number, value⟩ :: rest)).view = (.ok (.number value), rest) :=
  view_readExpression_cons _ _

theorem view_readExpression_string (value : String) (rest : List Token) :
    (readExpression (⟨.string, value⟩ :: rest)).view = (.ok (.string value), rest) :=
  view_readExpression_cons _ _

theorem view_readExpression_call {l name : String} {params : List Source}
    {ts rest : List Token} (h : (readArguments ts).view = (.ok params, rest)) :
    (readExpression (⟨.opening, l⟩ :: ⟨.name, name⟩ :: ts)).view =
      (.ok (.call name params), rest) := by
  rw [view_readExpression_cons]
  simp only [view_readCall_cons, h, Except.map]

theorem view_readArguments_closing (r : String) (rest : List Token) :
    (readArguments (⟨.closing, r⟩ :: rest)).view = (.ok [], rest) :=
  view_readArguments_cons _ _

theorem view_readArguments_of_expression {ts left rest : List Token} {param : Source}
    {params : List Source} (hfirst : (readExpression ts).view = (.ok param, left))
    (hothers : (readArguments left).view = (.ok params, rest)) :
    (readArguments ts).view = (.ok (param :: params), rest) := by
  cases ts with
  | nil => simp at hfirst
  | cons t ts =>
      rw [view_readArguments_cons]
      split
      · next hkind => simp [view_readExpression_cons, hkind] at hfirst
      · simp [hfirst, hothers, Except.map]

theorem readBody_of_expression {ts left : List Token} {item : Source}
    (hfirst : (readExpression ts).view = (.ok item, left)) :
    readBody ts = (readBody left).map (item :: ·) := by
  cases ts with
  | nil => simp at hfirst
  | cons t ts => simp [readBody_cons, hfirst]

theorem Linear.readArguments_eq {params : List Source} {us : List Token}
    (h : Linear params us) (r : String) (rest : List Token) :
    (readArguments (us ++ ⟨.closing, r⟩ :: rest)).view = (.ok params, rest) := by
  induction h generalizing r rest with
  | nil => exact view_readArguments_closing r rest
  | number _ ih =>
      exact view_readArguments_of_expression (view_readExpression_number _ _) (ih r rest)
  | string _ ih =>
      exact view_readArguments_of_expression (view_readExpression_string _ _) (ih r rest)
  | call _ _ ihparams ih =>
      rw [List.cons_append, List.cons_append, List.append_assoc, List.cons_append]
      exact view_readArguments_of_expression (view_readExpression_call (ihparams _ _)) (ih r rest)

/-- What is spelled is read, and reading goes on with what stands behind it. -/
theorem Linear.readBody_append {body : List Source} {us : List Token} (h : Linear body us)
    (ts : List Token) : readBody (us ++ ts) = (readBody ts).map (body ++ ·) := by
  have hcons : ∀ (item : Source) (body : List Source),
      ((readBody ts).map (body ++ ·)).map (item :: ·) = (readBody ts).map (item :: body ++ ·) := by
    intro item body
    cases readBody ts <;> rfl
  induction h with
  | nil =>
      rw [List.nil_append]
      cases readBody ts <;> rfl
  | number _ ih =>
      rw [List.cons_append, readBody_of_expression (view_readExpression_number _ _), ih, hcons]
  | string _ ih =>
      rw [List.cons_append, readBody_of_expression (view_readExpression_string _ _), ih, hcons]
  | call hparams _ _ ih =>
      rw [List.cons_append, List.cons_append, List.append_assoc, List.cons_append,
        readBody_of_expression (view_readExpression_call (hparams.readArguments_eq _ _)), ih,
        hcons]

/-! ### What is read is spelled -/

theorem exists_of_view_readArguments {ts rest : List Token} {params : List Source}
    (h : (readArguments ts).view = (.ok params, rest)) :
    (∃ r, ts = ⟨.closing, r⟩ :: rest ∧ params = []) ∨
      ∃ e es left, params = e :: es ∧ (readExpression ts).view = (.ok e, left) ∧
        (readArguments left).view = (.ok es, rest) := by
  cases ts with
  | nil => simp at h
  | cons t ts =>
      rw [view_readArguments_cons] at h
      split at h
      · next hkind =>
        obtain ⟨kind, text⟩ := t
        obtain rfl : kind = .closing := hkind
        cases h
        exact .inl ⟨text, rfl, rfl⟩
      · split at h
        · cases h
        · next e left hfirst =>
          obtain ⟨hothers, hrest⟩ := Prod.mk.inj h
          cases hargs : (readArguments left).view.1 with
          | error err => simp [hargs, Except.map] at hothers
          | ok es =>
              rw [hargs] at hothers
              cases hothers
              exact .inr ⟨e, es, left, rfl, hfirst, Prod.ext hargs hrest⟩

theorem exists_of_view_readExpression {ts rest : List Token} {e : Source}
    (h : (readExpression ts).view = (.ok e, rest)) :
    (∃ value, ts = ⟨.number, value⟩ :: rest ∧ e = .number value) ∨
      (∃ value, ts = ⟨.string, value⟩ :: rest ∧ e = .string value) ∨
      ∃ l name params left, ts = ⟨.opening, l⟩ :: ⟨.name, name⟩ :: left ∧
        e = .call name params ∧ (readArguments left).view = (.ok params, rest) := by
  cases ts with
  | nil => simp at h
  | cons t ts =>
      obtain ⟨kind, text⟩ := t
      rw [view_readExpression_cons] at h
      cases kind with
      | number =>
          cases h
          exact .inl ⟨text, rfl, rfl⟩
      | string =>
          cases h
          exact .inr (.inl ⟨text, rfl, rfl⟩)
      | closing => cases h
      | name => cases h
      | opening =>
          cases ts with
          | nil => simp at h
          | cons t ts =>
              obtain ⟨kind, name⟩ := t
              simp only [view_readCall_cons] at h
              cases kind with
              | name =>
                  obtain ⟨hresult, hrest⟩ := Prod.mk.inj h
                  cases hargs : (readArguments ts).view.1 with
                  | error err => simp [hargs, Except.map] at hresult
                  | ok params =>
                      rw [hargs] at hresult
                      cases hresult
                      exact .inr (.inr ⟨text, name, params, ts, rfl, rfl, Prod.ext hargs hrest⟩)
              | _ => cases h

theorem length_lt_of_view_readExpression {ts rest : List Token} {e : Source}
    (h : (readExpression ts).view = (.ok e, rest)) : rest.length < ts.length := by
  cases ts with
  | nil => simp at h
  | cons t ts =>
      have hshorter := (readExpression (t :: ts)).rest_length_lt
      have hrest : (readExpression (t :: ts)).rest = rest := congrArg Prod.snd h
      rwa [hrest] at hshorter

/-- What an expression is read from, where this is known of shorter arguments. -/
theorem linear_of_view_readExpression {ts rest : List Token} {e : Source}
    (harguments : ∀ (left : List Token) (params : List Source), left.length < ts.length →
      (readArguments left).view = (.ok params, rest) →
        ∃ us r, left = us ++ ⟨.closing, r⟩ :: rest ∧ Linear params us)
    (h : (readExpression ts).view = (.ok e, rest)) :
    ∃ us, ts = us ++ rest ∧ Linear [e] us := by
  obtain ⟨value, rfl, rfl⟩ | ⟨value, rfl, rfl⟩ | ⟨l, name, params, left, rfl, rfl, hargs⟩ :=
    exists_of_view_readExpression h
  · exact ⟨[⟨.number, value⟩], rfl, .number .nil⟩
  · exact ⟨[⟨.string, value⟩], rfl, .string .nil⟩
  · have hlt : left.length < left.length + 1 + 1 := by omega
    obtain ⟨us, r, rfl, hus⟩ := harguments left params hlt hargs
    exact ⟨_, by simp, .call (l := l) (r := r) hus .nil⟩

theorem linear_of_view_readArguments {ts rest : List Token} {params : List Source}
    (h : (readArguments ts).view = (.ok params, rest)) :
    ∃ us r, ts = us ++ ⟨.closing, r⟩ :: rest ∧ Linear params us := by
  -- The arguments inside the first expression are shorter, and so are those behind it.
  induction hn : ts.length using Nat.strongRecOn generalizing ts rest params with
  | ind n ih =>
      obtain ⟨r, rfl, rfl⟩ | ⟨e, es, left, rfl, hfirst, hothers⟩ := exists_of_view_readArguments h
      · exact ⟨[], r, rfl, .nil⟩
      · have hleft : left.length < n := hn ▸ length_lt_of_view_readExpression hfirst
        obtain ⟨us, rfl, hus⟩ : ∃ us, ts = us ++ left ∧ Linear [e] us := by
          refine linear_of_view_readExpression ?_ hfirst
          intro inside params hlt hargs
          exact ih inside.length (hn ▸ hlt) hargs rfl
        obtain ⟨vs, r, rfl, hvs⟩ := ih left.length hleft hothers rfl
        exact ⟨us ++ vs, r, by simp, by simpa using hus.append hvs⟩

theorem linear_of_readBody {ts : List Token} {body : List Source}
    (h : readBody ts = .ok body) : Linear body ts := by
  induction hn : ts.length using Nat.strongRecOn generalizing ts body with
  | ind n ih =>
      cases ts with
      | nil =>
          rw [readBody_nil] at h
          cases h
          exact .nil
      | cons t ts =>
          rw [readBody_cons] at h
          split at h
          · cases h
          · next item left hfirst =>
            have hleft : left.length < n := hn ▸ length_lt_of_view_readExpression hfirst
            cases hothers : readBody left with
            | error err => simp [hothers, Except.map] at h
            | ok items =>
                rw [hothers] at h
                cases h
                -- The arguments are known already, so only the items are left to the induction.
                obtain ⟨us, hus, hitem⟩ := linear_of_view_readExpression
                  (fun _ _ _ hargs => linear_of_view_readArguments hargs) hfirst
                rw [hus]
                exact hitem.append (ih left.length hleft hothers rfl)

end Source

open Source

theorem parse_of_linear {body : List Source} {ts : List Token} (h : Linear body ts) :
    parse ts = .ok (.program body) := by
  have hbody := h.readBody_append []
  rw [List.append_nil, readBody_nil] at hbody
  rw [parse, hbody]
  change Except.ok (Source.program (body ++ [])) = .ok (.program body)
  rw [List.append_nil]

theorem linear_of_parse {ts : List Token} {t : Source} (h : parse ts = .ok t) :
    ∃ body, t = .program body ∧ Linear body ts := by
  rw [parse] at h
  cases hbody : readBody ts with
  | error err => simp [hbody, Except.map] at h
  | ok body =>
      rw [hbody] at h
      cases h
      exact ⟨body, rfl, linear_of_readBody hbody⟩

/-- Tokens are read as a program exactly if they spell its body, and no body with
a program in it is spelled. -/
theorem parse_eq_ok_iff_linear (ts : List Token) (t : Source) :
    parse ts = .ok t ↔ ∃ body, t = .program body ∧
      (∀ c ∈ body, c.kind ≠ .program ∧ ∀ d, Below d c → d.kind ≠ .program) ∧
        Linear body ts := by
  constructor
  · intro h
    obtain ⟨body, rfl, hlinear⟩ := linear_of_parse h
    exact ⟨body, rfl, (programFreeList_iff body).mp hlinear.programFreeList, hlinear⟩
  · rintro ⟨body, rfl, -, hlinear⟩
    exact parse_of_linear hlinear

end Polish
