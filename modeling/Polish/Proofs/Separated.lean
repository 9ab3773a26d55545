import Polish.Proofs.Lexeme

/-!
Lists with separators, and when they can be read back.  A member can be told
apart if what begins with it, as written, begins with no other member.  A list
of such members keeps this property if what follows it can be taken neither
for a separator nor for a member (`intercalate_append_inj`).  A digit may go on
with what stands before it, so all of this is said of texts that do not go on
with a digit.
-/

namespace Polish

namespace Text

/-- What holds of the members and of the separator, and is kept when texts are
put behind one another, holds of the list. -/
theorem intercalate_induction {β : Type} {P : List β → Prop} {sep : List β} {xs : List (List β)}
    (nil : P []) (append : ∀ s t, P s → P t → P (s ++ t)) (hsep : P sep)
    (hxs : ∀ x ∈ xs, P x) : P (sep.intercalate xs) := by
  induction xs with
  | nil => exact nil
  | cons x xs ih =>
      rw [List.forall_mem_cons] at hxs
      cases xs with
      | nil =>
          rw [List.intercalate_singleton]
          exact hxs.1
      | cons y xs =>
          rw [List.intercalate_cons_cons]
          exact append _ _ (append _ _ hxs.1 hsep) (ih hxs.2)

variable {α : Type} {write : α → String} {sep : String} {xs ys : List α} {r t : List Char}

/-- What begins with `x` as written, and does not go on with a digit, begins
with no other member. -/
def Decodes (write : α → String) (x : α) : Prop :=
  ∀ y r t, Stops Char.isDigit r → Stops Char.isDigit t →
    (write x).toList ++ r = (write y).toList ++ t → x = y ∧ r = t

/-- What can stand after a list: no digit, no separator and no member. -/
structure Ends (write : α → String) (sep : String) (r : List Char) : Prop where
  stops : Stops Char.isDigit r
  no_separator : ∀ s, r ≠ sep.toList ++ s
  no_member : ∀ y s, r ≠ (write y).toList ++ s

def separated (write : α → String) (sep : String) (xs : List α) : List Char :=
  xs.flatMap fun x => sep.toList ++ (write x).toList

theorem separated_cons_append (x : α) (xs : List α) (r : List Char) :
    separated write sep (x :: xs) ++ r =
      sep.toList ++ ((write x).toList ++ (separated write sep xs ++ r)) := by
  simp [separated]

theorem toList_intercalate_cons (write : α → String) (sep : String) (x : α) (xs : List α) :
    (sep.intercalate ((x :: xs).map write)).toList =
      (write x).toList ++ separated write sep xs := by
  induction xs generalizing x with
  | nil => simp [separated]
  | cons y xs ih =>
      have ih := ih y
      rw [List.map_cons] at ih
      rw [List.map_cons, List.map_cons, String.intercalate_cons_cons, String.toList_append, ih]
      simp [separated]

theorem stops_separated_append (hsep : ∀ s, Stops Char.isDigit (sep.toList ++ s))
    (hr : Ends write sep r) : Stops Char.isDigit (separated write sep xs ++ r) := by
  cases xs with
  | nil => exact hr.stops
  | cons x xs =>
      rw [separated_cons_append]
      exact hsep _

theorem separated_append_inj (hsep : ∀ s, Stops Char.isDigit (sep.toList ++ s))
    (hxs : ∀ x ∈ xs, Decodes write x) (hr : Ends write sep r) (ht : Ends write sep t)
    (h : separated write sep xs ++ r = separated write sep ys ++ t) : xs = ys ∧ r = t := by
  induction xs generalizing ys with
  | nil =>
      cases ys with
      | nil => exact ⟨rfl, h⟩
      | cons y ys =>
          rw [separated_cons_append] at h
          exact absurd h (hr.no_separator _)
  | cons x xs ih =>
      rw [separated_cons_append] at h
      cases ys with
      | nil => exact absurd h.symm (ht.no_separator _)
      | cons y ys =>
          rw [separated_cons_append] at h
          obtain ⟨hx, hrest⟩ := List.forall_mem_cons.mp hxs
          obtain ⟨rfl, htail⟩ := hx _ _ _ (stops_separated_append hsep hr)
            (stops_separated_append hsep ht) (List.append_cancel_left h)
          obtain ⟨rfl, hend⟩ := ih hrest htail
          exact ⟨rfl, hend⟩

/-- A list with separators can be read back, and where it ends is determined. -/
theorem intercalate_append_inj (hsep : ∀ s, Stops Char.isDigit (sep.toList ++ s))
    (hxs : ∀ x ∈ xs, Decodes write x) (hr : Ends write sep r) (ht : Ends write sep t)
    (h : (sep.intercalate (xs.map write)).toList ++ r =
      (sep.intercalate (ys.map write)).toList ++ t) : xs = ys ∧ r = t := by
  cases xs with
  | nil =>
      cases ys with
      | nil => exact ⟨rfl, List.append_cancel_left h⟩
      | cons y ys =>
          rw [toList_intercalate_cons, List.append_assoc] at h
          exact absurd h (hr.no_member _ _)
  | cons x xs =>
      rw [toList_intercalate_cons, List.append_assoc] at h
      cases ys with
      | nil => exact absurd h.symm (ht.no_member _ _)
      | cons y ys =>
          rw [toList_intercalate_cons, List.append_assoc] at h
          obtain ⟨hx, hrest⟩ := List.forall_mem_cons.mp hxs
          obtain ⟨rfl, htail⟩ := hx _ _ _ (stops_separated_append hsep hr)
            (stops_separated_append hsep ht) h
          obtain ⟨rfl, hend⟩ := separated_append_inj hsep hrest hr ht htail
          exact ⟨rfl, hend⟩

end Text

end Polish
