import Polish.Proofs.Decoding

/-!
Quoted regions of a text, from a quote up to the next one, and what is left of
a text when characters are dropped that stand in such a region or outside.

Which characters are in a region depends on all quotes before them.  A text is
closed if it leaves no region open, and then what stands behind it may be
looked at alone (`Closed.kept_append`).  Everything that is written for an
expression is closed, since strings are written between quotes and have none
inside, so what is kept of an output is put together from what is kept of its
parts (`kept_text_call`, `kept_output`).
-/

namespace Polish

namespace Text

/-- The characters of a text, each with whether it stands in a quoted region;
the quotes at both ends do.  Whether a region is open at the beginning is said
by `inside`. -/
def marked (inside : Bool) : List Char → List (Char × Bool)
  | [] => []
  | c :: s =>
    if c = '"' then (c, true) :: marked (!inside) s else (c, inside) :: marked inside s

/-- The characters that are to be kept, by what they are and whether they stand
in a quoted region. -/
def kept (keep : Char × Bool → Bool) (s : List Char) : List Char :=
  ((marked false s).filter keep).map Prod.fst

def outside (m : Char × Bool) : Bool :=
  !m.2

/-- Whether a character is anything but a comma or semicolon outside of quoted
regions. -/
def noSeparator (m : Char × Bool) : Bool :=
  m.2 || (m.1 != ',' && m.1 != ';')

/-- What is left of a text when its quoted regions are cut out. -/
def unquoted (s : String) : List Char :=
  kept outside s.toList

/-- The text without the commas and semicolons that stand outside of its quoted
regions. -/
def unpunctuated (s : String) : String :=
  String.ofList (kept noSeparator s.toList)

/-- No quoted region goes on behind these characters. -/
def Closed (s : List Char) : Prop :=
  ∀ r, marked false (s ++ r) = marked false s ++ marked false r

variable {keep : Char × Bool → Bool} {s t r : List Char}

theorem marked_append_of_not_mem (hs : '"' ∉ s) (inside : Bool) (r : List Char) :
    marked inside (s ++ r) = s.map (·, inside) ++ marked inside r := by
  induction s with
  | nil => rfl
  | cons c s ih =>
      rw [List.mem_cons, not_or] at hs
      rw [List.cons_append, marked, if_neg (Ne.symm hs.1), ih hs.2]
      rfl

theorem marked_of_not_mem (hs : '"' ∉ s) (inside : Bool) :
    marked inside s = s.map (·, inside) := by
  have h := marked_append_of_not_mem hs inside []
  rwa [List.append_nil, marked, List.append_nil] at h

theorem marked_quoted_append (hs : '"' ∉ s) (r : List Char) :
    marked false ('"' :: (s ++ '"' :: r)) = ('"' :: (s ++ ['"'])).map (·, true) ++ marked false r := by
  rw [marked, if_pos rfl, Bool.not_false, marked_append_of_not_mem hs, marked, if_pos rfl]
  simp

theorem closed_nil : Closed [] := fun _ => rfl

theorem Closed.append (hs : Closed s) (ht : Closed t) : Closed (s ++ t) := by
  intro r
  rw [List.append_assoc, hs, hs, ht, List.append_assoc]

theorem closed_of_not_mem (hs : '"' ∉ s) : Closed s := by
  intro r
  rw [marked_append_of_not_mem hs, marked_of_not_mem hs]

theorem closed_quoted (hs : '"' ∉ s) : Closed ('"' :: (s ++ ['"'])) := by
  intro r
  have h := marked_quoted_append hs []
  rw [marked, List.append_nil] at h
  rw [h, ← marked_quoted_append hs]
  simp

theorem closed_intercalate {sep : List Char} {xs : List (List Char)} (hsep : Closed sep)
    (hxs : ∀ x ∈ xs, Closed x) : Closed (sep.intercalate xs) :=
  intercalate_induction closed_nil (fun _ _ => Closed.append) hsep hxs

theorem Closed.kept_append (hs : Closed s) (r : List Char) :
    kept keep (s ++ r) = kept keep s ++ kept keep r := by
  rw [kept, hs, List.filter_append, List.map_append]
  rfl

theorem map_fst_filter_map (b : Bool) (s : List Char) :
    ((s.map (·, b)).filter keep).map Prod.fst = s.filter fun c => keep (c, b) := by
  rw [List.filter_map, List.map_map]
  exact List.map_id _

theorem kept_of_not_mem (hs : '"' ∉ s) : kept keep s = s.filter fun c => keep (c, false) := by
  rw [kept, marked_of_not_mem hs, map_fst_filter_map]

theorem kept_quoted (hs : '"' ∉ s) :
    kept keep ('"' :: (s ++ ['"'])) = ('"' :: (s ++ ['"'])).filter fun c => keep (c, true) := by
  have h := marked_quoted_append hs []
  rw [marked, List.append_nil] at h
  rw [kept, h, map_fst_filter_map]

theorem kept_intercalate {sep : List Char} {xs : List (List Char)} (hsep : Closed sep)
    (hxs : ∀ x ∈ xs, Closed x) :
    kept keep (sep.intercalate xs) = (kept keep sep).intercalate (xs.map (kept keep)) := by
  induction xs with
  | nil => rfl
  | cons x xs ih =>
      rw [List.forall_mem_cons] at hxs
      cases xs with
      | nil => simp
      | cons y xs =>
          rw [List.intercalate_cons_cons, (hxs.1.append hsep).kept_append, hxs.1.kept_append,
            ih hxs.2, List.map_cons, List.map_cons, List.map_cons, List.intercalate_cons_cons]

end Text

namespace Expression

open Text

/-! ### What is written for expressions -/

theorem toList_text_number (digits : { s : String // IsRun Char.isDigit s }) :
    (text (number digits)).toList = digits.1.toList := by
  rw [text]

theorem toList_text_string (content : { s : String // '"' ∉ s.toList }) :
    (text (string content)).toList = '"' :: (content.1.toList ++ ['"']) := by
  simp [text]

theorem toList_text_call (name : { s : String // IsRun Char.isAlpha s })
    (params : List Expression) :
    (text (call name params)).toList =
      name.1.toList ++ '(' :: ([',', ' '].intercalate (params.map (·.text.toList)) ++ [')']) := by
  simp [text, textList_eq_map, String.toList_intercalate, Function.comp_def]

theorem toList_output (body : List Expression) :
    (output body).toList = ['\n'].intercalate (body.map (·.line.toList)) := by
  simp [output, String.toList_intercalate, Function.comp_def]

theorem closed_text (e : Expression) : Closed e.text.toList := by
  induction e using params_induction with
  | number digits =>
      rw [toList_text_number]
      exact closed_of_not_mem (digits.2.not_mem rfl)
  | string content =>
      rw [toList_text_string]
      exact closed_quoted content.2
  | call name params ih =>
      have hname : Closed name.1.toList := closed_of_not_mem (name.2.not_mem rfl)
      have hopen : Closed ['('] := closed_of_not_mem (by decide)
      have hclose : Closed [')'] := closed_of_not_mem (by decide)
      have hparams : Closed ([',', ' '].intercalate (params.map (·.text.toList))) :=
        closed_intercalate (closed_of_not_mem (by decide)) (List.forall_mem_map.mpr ih)
      rw [toList_text_call]
      exact hname.append (hopen.append (hparams.append hclose))

theorem closed_line (e : Expression) : Closed e.line.toList := by
  rw [toList_line]
  refine (closed_text e).append (closed_of_not_mem ?_)
  cases e <;> simp [ending]

section Kept

variable {keep : Char × Bool → Bool}

/-- Whatever is dropped outside of quoted regions is a comma or a semicolon. -/
def KeepsOutside (keep : Char × Bool → Bool) : Prop :=
  ∀ c, c ≠ ',' → c ≠ ';' → keep (c, false) = true

theorem keepsOutside_outside : KeepsOutside outside := fun _ _ _ => rfl

theorem keepsOutside_noSeparator : KeepsOutside noSeparator := by
  intro c hcomma hsemicolon
  simp [noSeparator, hcomma, hsemicolon]

theorem kept_eq_self (hkeep : KeepsOutside keep) {s : List Char} (hquote : '"' ∉ s)
    (hcomma : ',' ∉ s) (hsemicolon : ';' ∉ s) : kept keep s = s := by
  rw [kept_of_not_mem hquote, List.filter_eq_self]
  intro c hc
  apply hkeep
  · rintro rfl
    exact hcomma hc
  · rintro rfl
    exact hsemicolon hc

theorem kept_run (hkeep : KeepsOutside keep) {p : Char → Bool} {a : String} (ha : IsRun p a)
    (hquote : p '"' = false) (hcomma : p ',' = false) (hsemicolon : p ';' = false) :
    kept keep a.toList = a.toList :=
  kept_eq_self hkeep (ha.not_mem hquote) (ha.not_mem hcomma) (ha.not_mem hsemicolon)

theorem kept_text_number (hkeep : KeepsOutside keep)
    (digits : { s : String // IsRun Char.isDigit s }) :
    kept keep (text (number digits)).toList = digits.1.toList := by
  rw [toList_text_number]
  exact kept_run hkeep digits.2 rfl rfl rfl

theorem kept_text_call (hkeep : KeepsOutside keep) (name : { s : String // IsRun Char.isAlpha s })
    (params : List Expression) :
    kept keep (text (call name params)).toList =
      name.1.toList ++ '(' :: ((kept keep [',', ' ']).intercalate
        (params.map fun e => kept keep e.text.toList) ++ [')']) := by
  have hname : Closed name.1.toList := closed_of_not_mem (name.2.not_mem rfl)
  have hopen : Closed ['('] := closed_of_not_mem (by decide)
  have hsep : Closed [',', ' '] := closed_of_not_mem (by decide)
  have hparams := List.forall_mem_map.mpr fun (e : Expression) (_ : e ∈ params) => closed_text e
  have hbrackets : kept keep ['('] = ['('] ∧ kept keep [')'] = [')'] := by
    constructor <;> apply kept_eq_self hkeep <;> decide
  rw [toList_text_call, hname.kept_append, kept_run hkeep name.2 rfl rfl rfl,
    ← List.singleton_append, hopen.kept_append, (closed_intercalate hsep hparams).kept_append,
    kept_intercalate hsep hparams, List.map_map, hbrackets.1, hbrackets.2]
  rfl

theorem kept_line (e : Expression) :
    kept keep e.line.toList = kept keep e.text.toList ++ kept keep e.ending := by
  rw [toList_line, (closed_text e).kept_append]

theorem kept_output (hkeep : KeepsOutside keep) (body : List Expression) :
    kept keep (output body).toList =
      ['\n'].intercalate (body.map fun e => kept keep e.line.toList) := by
  have hlines := List.forall_mem_map.mpr fun (e : Expression) (_ : e ∈ body) => closed_line e
  have hnewline : kept keep ['\n'] = ['\n'] := by
    apply kept_eq_self hkeep <;> decide
  rw [toList_output, kept_intercalate (closed_of_not_mem (by decide)) hlines, List.map_map, hnewline]
  rfl

end Kept

end Expression

end Polish
