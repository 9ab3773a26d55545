/-!
The total of a measure over a list.
-/

namespace Polish

variable {α : Type}

/-- The sum of `f a` over the members `a` of a list. -/
def total (f : α → Nat) : List α → Nat
  | [] => 0
  | a :: as => f a + total f as

@[simp] theorem total_nil (f : α → Nat) : total f [] = 0 := rfl

@[simp] theorem total_cons (f : α → Nat) (a : α) (as : List α) :
    total f (a :: as) = f a + total f as := rfl

@[simp] theorem total_append (f : α → Nat) (as bs : List α) :
    total f (as ++ bs) = total f as + total f bs := by
  induction as with
  | nil => simp
  | cons a as ih =>
    rw [List.cons_append, total_cons, total_cons, ih]
    omega

@[simp] theorem total_reverse (f : α → Nat) (as : List α) :
    total f as.reverse = total f as := by
  induction as with
  | nil => rfl
  | cons a as ih =>
    rw [List.reverse_cons, total_append, total_cons, total_cons, total_nil, ih]
    omega

theorem le_total_of_mem {f : α → Nat} {a : α} {as : List α} (h : a ∈ as) : f a ≤ total f as := by
  induction h with
  | head as => simp
  | tail b _ ih =>
    rw [total_cons]
    omega

theorem total_map {β : Type} (f : β → Nat) (g : α → β) (as : List α) :
    total f (as.map g) = total (fun a => f (g a)) as := by
  induction as with
  | nil => rfl
  | cons a as ih => rw [List.map_cons, total_cons, total_cons, ih]

theorem countP_flatMap_eq_total {β : Type} (p : β → Bool) (g : α → List β) (as : List α) :
    (as.flatMap g).countP p = total (fun a => (g a).countP p) as := by
  induction as with
  | nil => rfl
  | cons a as ih => rw [List.flatMap_cons, List.countP_append, ih, total_cons]

theorem total_add (f g : α → Nat) (as : List α) :
    total (fun a => f a + g a) as = total f as + total g as := by
  induction as with
  | nil => rfl
  | cons a as ih =>
    simp only [total_cons, ih]
    omega

theorem total_const (n : Nat) (as : List α) : total (fun _ => n) as = as.length * n := by
  induction as with
  | nil => simp
  | cons a as ih => rw [total_cons, ih, List.length_cons, Nat.succ_mul, Nat.add_comm]

end Polish
