import Mathlib.Data.List.Infix
import Polish.Proofs.Turns
import Polish.Source.Read

/-!
How deep reading goes.

The productions for expressions and for calls use each other, and both work on
one stream of tokens.  An activation is one use of a production: the tokens it is
given and the activations it makes itself.  Which these are is said in terms of
what the readers find and leave.  `Makes` has a rule for each way that a
production can go, and `LoopsIn` follows a loop pass by pass up to its end and
comes to what the reader comes to.

Nothing is asked of the tokens.  An activation that has a token to read uses it
up, so every pass of a loop starts with fewer tokens than the one before.  Only
an opening bracket leads from an expression into a call, and from there to the
expressions inside, so activations are nested no deeper than there are opening
brackets, and one deeper for expressions.
-/

namespace Polish

namespace Source

inductive Production
  | expression
  | call
  deriving DecidableEq, Repr

/-- One use of a production: the tokens it is given, and the activations that it
makes, in order. -/
structure Activation where
  production : Production
  before : List Token
  inner : List Activation
  deriving Repr

def Production.rest : Production → List Token → List Token
  | .expression, ts => (readExpression ts).rest
  | .call, ts => (readCall ts).rest

def Activation.after (a : Activation) : List Token :=
  a.production.rest a.before

/-- What a loop over expressions finds and leaves. -/
abbrev Found := Except ParseError (List Source) × List Token

/-- The loop of a call ends at the closing bracket, and fails without one. -/
def callEnd : List Token → Option Found
  | [] => some (.error .unexpectedEnd, [])
  | t :: rest => if t.kind = .closing then some (.ok [], rest) else none

def programEnd : List Token → Option Found
  | [] => some (.ok [], [])
  | _ :: _ => none

/-- A loop that starts with the tokens `ts` makes the activations `as` and comes
to `found`.  Where `ending` does not end it, a pass reads one expression, leaves
fewer tokens than it was given, and hands these to the next pass.  A pass that
fails is the last. -/
inductive LoopsIn (ending : List Token → Option Found) :
    List Activation → List Token → Found → Prop
  | stop {ts : List Token} {found : Found} (hend : ending ts = some found) :
      LoopsIn ending [] ts found
  | fault {t : Token} {rest left : List Token} {inner : List Activation} {e : ParseError}
      (hend : ending (t :: rest) = none)
      (hread : (readExpression (t :: rest)).view = (.error e, left))
      (hlt : left.length < (t :: rest).length) :
      LoopsIn ending [⟨.expression, t :: rest, inner⟩] (t :: rest) (.error e, left)
  | pass {t : Token} {rest left : List Token} {inner as : List Activation} {item : Source}
      {found : Found} (hend : ending (t :: rest) = none)
      (hread : (readExpression (t :: rest)).view = (.ok item, left))
      (hlt : left.length < (t :: rest).length) (h : LoopsIn ending as left found) :
      LoopsIn ending (⟨.expression, t :: rest, inner⟩ :: as) (t :: rest)
        (found.1.map (item :: ·), found.2)

theorem view_readArguments_of_callEnd {t : Token} {rest : List Token}
    (h : callEnd (t :: rest) = none) :
    (readArguments (t :: rest)).view =
      match (readExpression (t :: rest)).view with
      | (.error e, left) => (.error e, left)
      | (.ok param, left) =>
        ((readArguments left).view.1.map (param :: ·), (readArguments left).view.2) := by
  have ht : t.kind ≠ .closing := by
    intro ht
    rw [callEnd, if_pos ht] at h
    cases h
  rw [view_readArguments_cons]
  split
  · contradiction
  · rfl

namespace LoopsIn

variable {as : List Activation} {ts : List Token} {found : Found}

theorem length_le {ending : List Token → Option Found} (h : LoopsIn ending as ts found) :
    as.length ≤ ts.length := by
  induction h with
  | stop => exact Nat.zero_le _
  | fault _ _ hlt => exact Nat.one_le_of_lt hlt
  | pass _ _ hlt _ ih => exact Nat.lt_of_le_of_lt ih hlt

theorem view_readArguments (h : LoopsIn callEnd as ts found) : (readArguments ts).view = found := by
  induction h with
  | @stop ts found hend =>
      cases ts with
      | nil => exact view_readArguments_nil.trans (Option.some.inj hend)
      | cons t rest =>
          by_cases ht : t.kind = .closing
          · rw [callEnd, if_pos ht] at hend
            rw [view_readArguments_cons, ht]
            exact Option.some.inj hend
          · rw [callEnd, if_neg ht] at hend
            cases hend
  | fault hend hread => rw [view_readArguments_of_callEnd hend, hread]
  | pass hend hread _ _ ih =>
      rw [view_readArguments_of_callEnd hend, hread]
      simp only [ih]

theorem readBody_eq (h : LoopsIn programEnd as ts found) : readBody ts = found.1 := by
  induction h with
  | @stop ts found hend =>
      cases ts with
      | nil =>
          cases hend
          exact readBody_nil
      | cons t rest => cases hend
  | fault _ hread => rw [readBody_cons, hread]
  | pass _ hread _ _ ih =>
      rw [readBody_cons, hread]
      simp only [ih]

end LoopsIn

/-! ### Activations -/

/-- The activations `as` that a production makes when it is given some tokens.  An
expression goes on to a call behind an opening bracket, and to nothing behind
another token.  A call goes through a loop behind its name. -/
inductive Makes : Production → List Token → List Activation → Prop
  | nil {p : Production} : Makes p [] []
  | token {t : Token} {rest : List Token} (ht : t.kind ≠ .opening)
      (hrest : (readExpression (t :: rest)).rest = rest) : Makes .expression (t :: rest) []
  | bracket {t : Token} {rest : List Token} {inner : List Activation} (ht : t.kind = .opening)
      (hview : (readExpression (t :: rest)).view = (readCall rest).view) :
      Makes .expression (t :: rest) [⟨.call, rest, inner⟩]
  | nameless {t : Token} {rest : List Token} (ht : t.kind ≠ .name)
      (hrest : (readCall (t :: rest)).rest = rest) : Makes .call (t :: rest) []
  | named {t : Token} {rest : List Token} {as : List Activation} {found : Found}
      (ht : t.kind = .name)
      (hview : (readCall (t :: rest)).view = (found.1.map (.call t.text), found.2))
      (h : LoopsIn callEnd as rest found) : Makes .call (t :: rest) as

/-- The activation `a` is one of `as` or is made inside one of them. -/
inductive Within (a : Activation) : List Activation → Prop
  | mem {as : List Activation} (h : a ∈ as) : Within a as
  | inside {b : Activation} {as : List Activation} (hb : b ∈ as) (h : Within a b.inner) :
      Within a as

/-- An activation makes what its production makes.  It reads from the front of
its tokens, at least one if there is any. -/
structure Activation.GetsOn (a : Activation) : Prop where
  makes : Makes a.production a.before a.inner
  isSuffix : a.after <:+ a.before
  shorter : a.before ≠ [] → a.after.length < a.before.length

/-- What an activation of `production` adds to the depth of `p`. -/
def Production.share (production p : Production) : Nat :=
  if production = p then 1 else 0

mutual

/-- The largest number of activations of a production that are open at one time. -/
def Activation.depth (p : Production) : Activation → Nat
  | ⟨production, _, inner⟩ => production.share p + depthAll p inner

def depthAll (p : Production) : List Activation → Nat
  | [] => 0
  | a :: as => max (a.depth p) (depthAll p as)

end

def openings (ts : List Token) : Nat :=
  ts.countP (·.kind = .opening)

theorem openings_le_of_isSuffix {us ts : List Token} (h : us <:+ ts) :
    openings us ≤ openings ts :=
  h.sublist.countP_le

/-- The activations `as` get on, with all that are made inside them, and are
nested no deeper than `bound`. -/
structure Bounded (bound : Production → Nat) (as : List Activation) : Prop where
  getsOn : ∀ a, Within a as → a.GetsOn
  depth_le : ∀ p, depthAll p as ≤ bound p

/-- How deep activations are nested while expressions are read from `ts`.  An
opening bracket pays for a call or for the expressions in it. -/
def deepest (ts : List Token) (p : Production) : Nat :=
  openings ts + Production.expression.share p

theorem deepest_le_of_isSuffix {us ts : List Token} (h : us <:+ ts) (p : Production) :
    deepest us p ≤ deepest ts p :=
  Nat.add_le_add_right (openings_le_of_isSuffix h) _

theorem share_call_add_deepest (ts : List Token) (p : Production) :
    Production.call.share p + deepest ts p = openings ts + 1 := by
  cases p
  · exact Nat.zero_add _
  · exact Nat.add_comm 1 _

namespace Bounded

variable {bound bound' : Production → Nat} {a : Activation} {as : List Activation}

theorem nil (bound : Production → Nat) : Bounded bound [] where
  getsOn a ha := by
    rcases ha with h | ⟨hb, -⟩
    · cases h
    · cases hb
  depth_le _ := Nat.zero_le _

theorem cons (ha : Bounded bound [a]) (has : Bounded bound as) : Bounded bound (a :: as) where
  getsOn b hb := by
    rcases hb with h | ⟨hc, h⟩
    · rcases List.mem_cons.mp h with rfl | h
      · exact ha.getsOn b (.mem List.mem_cons_self)
      · exact has.getsOn b (.mem h)
    · rcases List.mem_cons.mp hc with rfl | hc
      · exact ha.getsOn b (.inside List.mem_cons_self h)
      · exact has.getsOn b (.inside hc h)
  depth_le p := by
    have h := ha.depth_le p
    rw [depthAll, depthAll, Nat.max_zero] at h
    exact Nat.max_le.mpr ⟨h, has.depth_le p⟩

theorem singleton (ha : a.GetsOn) (hinner : Bounded bound' a.inner)
    (hle : ∀ p, a.production.share p + bound' p ≤ bound p) : Bounded bound [a] where
  getsOn b hb := by
    rcases hb with h | ⟨hc, h⟩
    · exact List.mem_singleton.mp h ▸ ha
    · exact hinner.getsOn b (List.mem_singleton.mp hc ▸ h)
  depth_le p := by
    obtain ⟨production, before, inner⟩ := a
    rw [depthAll, depthAll, Nat.max_zero, Activation.depth]
    exact Nat.le_trans (Nat.add_le_add_left (hinner.depth_le p) _) (hle p)

theorem mono (h : Bounded bound as) (hle : ∀ p, bound p ≤ bound' p) : Bounded bound' as where
  getsOn := h.getsOn
  depth_le p := Nat.le_trans (h.depth_le p) (hle p)

end Bounded

/-! ### Every reading is an activation -/

theorem length_rest_lt (p : Production) {ts : List Token} (h : ts ≠ []) :
    (p.rest ts).length < ts.length := by
  cases ts with
  | nil => exact absurd rfl h
  | cons t rest =>
      cases p
      · exact (readExpression (t :: rest)).rest_length_lt
      · exact (readCall (t :: rest)).rest_length_lt

theorem Makes.getsOn {p : Production} {ts left : List Token} {inner : List Activation}
    (h : Makes p ts inner) (hrest : p.rest ts = left) (hleft : left <:+ ts) :
    Activation.GetsOn ⟨p, ts, inner⟩ where
  makes := h
  isSuffix := by
    show p.rest ts <:+ ts
    rw [hrest]
    exact hleft
  shorter := length_rest_lt p

theorem getsOn_nil (p : Production) : Activation.GetsOn ⟨p, [], []⟩ := by
  have hrest : p.rest [] = [] := by
    cases p
    · exact congrArg Prod.snd view_readExpression_nil
    · exact congrArg Prod.snd view_readCall_nil
  exact Makes.nil.getsOn hrest (List.suffix_refl [])

/-- Reading `ts` as an expression is an activation, and nothing in it is nested
too deep. -/
def ExpressionReads (ts : List Token) : Prop :=
  ∃ inner, Bounded (deepest ts) [⟨.expression, ts, inner⟩]

theorem exists_loop {ending : List Token → Option Found} (hnil : ending [] ≠ none)
    (hsuffix : ∀ ts found, ending ts = some found → found.2 <:+ ts) {n : Nat}
    (hread : ∀ us : List Token, us.length ≤ n → ExpressionReads us) (ts : List Token)
    (hts : ts.length ≤ n) :
    ∃ as found, LoopsIn ending as ts found ∧ Bounded (deepest ts) as ∧ found.2 <:+ ts := by
  -- The bound `n` stays, since expressions are only known up to it; what is left gets less.
  induction hlength : ts.length using Nat.strongRecOn generalizing ts with
  | ind m ih =>
      cases hend : ending ts with
      | some found => exact ⟨[], found, .stop hend, .nil _, hsuffix ts found hend⟩
      | none =>
          cases ts with
          | nil => exact absurd hend hnil
          | cons t rest =>
              obtain ⟨inner, hfirst⟩ := hread (t :: rest) hts
              have hlt := (readExpression (t :: rest)).rest_length_lt
              have hleft : (readExpression (t :: rest)).rest <:+ t :: rest :=
                (hfirst.getsOn _ (.mem List.mem_cons_self)).isSuffix
              cases hresult : (readExpression (t :: rest)).result with
              | error e =>
                  have hview : (readExpression (t :: rest)).view = (.error e, _) :=
                    Prod.ext hresult rfl
                  exact ⟨_, _, .fault hend hview hlt, hfirst, hleft⟩
              | ok item =>
                  have hview : (readExpression (t :: rest)).view = (.ok item, _) :=
                    Prod.ext hresult rfl
                  obtain ⟨as, found, hloops, hothers, hlast⟩ :=
                    ih _ (hlength ▸ hlt) _ (Nat.le_trans (Nat.le_of_lt hlt) hts) rfl
                  exact ⟨_, _, .pass hend hview hlt hloops,
                    hfirst.cons (hothers.mono (deepest_le_of_isSuffix hleft)), hlast.trans hleft⟩

theorem isSuffix_of_callEnd (ts : List Token) (found : Found) (h : callEnd ts = some found) :
    found.2 <:+ ts := by
  cases ts with
  | nil =>
      cases h
      exact List.suffix_refl []
  | cons t rest =>
      rw [callEnd] at h
      split at h
      · cases h
        exact List.suffix_cons t rest
      · cases h

theorem exists_call {n : Nat} (hread : ∀ us : List Token, us.length ≤ n → ExpressionReads us)
    (ts : List Token) (hts : ts.length ≤ n + 1) :
    ∃ inner, Bounded (fun _ => openings ts + 1) [⟨.call, ts, inner⟩] := by
  cases ts with
  | nil => exact ⟨[], .singleton (getsOn_nil .call) (.nil (deepest [])) fun p =>
      Nat.le_of_eq (share_call_add_deepest [] p)⟩
  | cons t rest =>
      have hview := view_readCall_cons t rest
      by_cases ht : t.kind = .name
      · have hrest : rest.length ≤ n := Nat.le_of_succ_le_succ hts
        obtain ⟨as, found, hloops, hinner, hlast⟩ :=
          exists_loop (Option.some_ne_none _) isSuffix_of_callEnd hread rest hrest
        simp only [ht, hloops.view_readArguments] at hview
        have hcall : Activation.GetsOn ⟨.call, t :: rest, as⟩ :=
          (Makes.named ht hview hloops).getsOn (congrArg Prod.snd hview)
            (hlast.trans (List.suffix_cons t rest))
        have hdeep := hinner.mono (deepest_le_of_isSuffix (List.suffix_cons t rest))
        exact ⟨as, .singleton hcall hdeep fun p => Nat.le_of_eq (share_call_add_deepest _ p)⟩
      · have hrest : (readCall (t :: rest)).rest = rest := by
          split at hview
          · contradiction
          · exact congrArg Prod.snd hview
        have hcall : Activation.GetsOn ⟨.call, t :: rest, []⟩ :=
          (Makes.nameless ht hrest).getsOn hrest (List.suffix_cons t rest)
        exact ⟨[], .singleton hcall (.nil (deepest (t :: rest))) fun p =>
          Nat.le_of_eq (share_call_add_deepest _ p)⟩

theorem expressionReads (ts : List Token) : ExpressionReads ts := by
  -- The loop of a call starts two tokens later, and its passes start later still.
  induction hn : ts.length using Nat.strongRecOn generalizing ts with
  | ind n ih =>
      have hbound : ∀ p, Production.expression.share p + openings ts ≤ deepest ts p :=
        fun p => Nat.le_of_eq (Nat.add_comm _ _)
      cases ts with
      | nil => exact ⟨[], .singleton (getsOn_nil .expression) (.nil _) hbound⟩
      | cons t rest =>
          rw [List.length_cons] at hn
          have hview := view_readExpression_cons t rest
          by_cases ht : t.kind = .opening
          · obtain ⟨inner, hcall⟩ := exists_call (n := rest.length - 1)
              (fun us hus => ih us.length (by omega) us rfl) rest (by omega)
            have hbracket : openings (t :: rest) = openings rest + 1 :=
              List.countP_cons_of_pos (decide_eq_true ht)
            simp only [ht] at hview
            rw [← hbracket] at hcall
            have hleft : (readCall rest).rest <:+ rest :=
              (hcall.getsOn _ (.mem List.mem_cons_self)).isSuffix
            have hexpression : Activation.GetsOn ⟨.expression, t :: rest, [⟨.call, rest, inner⟩]⟩ :=
              (Makes.bracket ht hview).getsOn (congrArg Prod.snd hview)
                (hleft.trans (List.suffix_cons t rest))
            exact ⟨_, .singleton hexpression hcall hbound⟩
          · have hrest : (readExpression (t :: rest)).rest = rest := by
              cases hkind : t.kind with
              | opening => exact absurd hkind ht
              | _ =>
                  simp only [hkind] at hview
                  exact congrArg Prod.snd hview
            have hexpression : Activation.GetsOn ⟨.expression, t :: rest, []⟩ :=
              (Makes.token ht hrest).getsOn hrest (List.suffix_cons t rest)
            exact ⟨[], .singleton hexpression (.nil _) hbound⟩

/-- Reading tokens stops, whatever they are, and makes the activations `as`. -/
structure ReadStops (ts : List Token) (as : List Activation) : Prop where
  /-- The items are read by a loop, and each pass of it uses up tokens. -/
  loops : ∃ found, LoopsIn programEnd as ts found ∧ parse ts = found.1.map .program
  length_le : as.length ≤ ts.length
  /-- So does every activation that has a token to read, however deep inside. -/
  getsOn : ∀ a, Within a as → a.GetsOn
  /-- Calls are nested at most as deep as there are opening brackets, and
  expressions one deeper. -/
  depth_expression_le : depthAll .expression as ≤ openings ts + 1
  depth_call_le : depthAll .call as ≤ openings ts

theorem exists_readStops (ts : List Token) : ∃ as, ReadStops ts as := by
  have hsuffix : ∀ ts found, programEnd ts = some found → found.2 <:+ ts := by
    intro ts found h
    cases ts with
    | nil =>
        cases h
        exact List.suffix_refl []
    | cons t rest => cases h
  obtain ⟨as, found, hloops, hbounded, -⟩ := exists_loop (Option.some_ne_none _) hsuffix
    (fun us _ => expressionReads us) ts (Nat.le_refl _)
  refine ⟨as, ⟨found, hloops, ?_⟩, hloops.length_le, hbounded.getsOn, ?_, ?_⟩
  · rw [parse, hloops.readBody_eq]
  · exact hbounded.depth_le .expression
  · exact hbounded.depth_le .call

end Source

/-- Scanning and reading get on with every turn, and so they stop on every text
and on all tokens. -/
theorem scanning_and_reading_stop :
    (∀ s : String, ScanStops s) ∧ ∀ ts : List Token, ∃ as, Source.ReadStops ts as :=
  ⟨scanStops, Source.exists_readStops⟩

end Polish
