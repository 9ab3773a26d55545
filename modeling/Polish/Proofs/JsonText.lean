import Polish.Json
import Polish.Proofs.Separated

/-!
The text of a JSON value tells which value it is the text of.

Inside a string every character is written in a way that can be read back
(`unescape?_escape_append`), and no character is written with a quote in front,
so a string ends at the first quote that does.  Arrays and objects end with
their brackets.  This is proved for values that are put together from strings,
which are the ones that trees and tokens are written as: what begins with the
text of such a value begins with no other one (`Textual.render_append_inj`).
-/

namespace Polish

namespace Json

open Text

def hexValue (c : Char) : Nat :=
  if c.isDigit then c.toNat - 48 else c.toNat - 87

/-- The characters that are written as a backslash and a letter. -/
def letters : List (Char × Char) :=
  [('"', '"'), ('\\', '\\'), ('b', '\x08'), ('t', '\t'), ('n', '\n'), ('f', '\x0c'), ('r', '\r')]

def unescape? : List Char → Option (Char × List Char)
  | '\\' :: 'u' :: _ :: _ :: x :: y :: r => some (Char.ofNat (16 * hexValue x + hexValue y), r)
  | '\\' :: c :: r => (letters.lookup c).map (·, r)
  | c :: r => if c = '"' then none else some (c, r)
  | [] => none

theorem hexValue_digitChar : ∀ d < 16, hexValue (Nat.digitChar d) = d := by
  decide

theorem unescape?_escape_append (c : Char) (r : List Char) :
    unescape? ((escape c).toList ++ r) = some (c, r) := by
  unfold escape
  -- Seven characters have a letter of their own.
  iterate 7
    split
    · next h => subst h; rfl
  split
  · have hhigh := hexValue_digitChar (c.toNat / 16) (by omega)
    have hlow := hexValue_digitChar (c.toNat % 16) (by omega)
    have hc : 16 * (c.toNat / 16) + c.toNat % 16 = c.toNat := Nat.div_add_mod ..
    simp [unescape?, hhigh, hlow, hc]
  · next hquote hbackslash _ _ _ _ _ _ => simp [unescape?, hquote, hbackslash]

theorem toList_quoted_append (s : String) (r : List Char) :
    (quoted s).toList ++ r =
      '"' :: (s.toList.flatMap (fun c => (escape c).toList) ++ '"' :: r) := by
  simp [quoted, String.toList_join, List.flatMap_map]

/-- The characters of a string and what follows its closing quote are determined. -/
theorem escaped_append_inj {a b r s : List Char}
    (h : a.flatMap (fun c => (escape c).toList) ++ '"' :: r =
      b.flatMap (fun c => (escape c).toList) ++ '"' :: s) : a = b ∧ r = s := by
  have hread := congrArg unescape? h
  induction a generalizing b with
  | nil =>
      cases b with
      | nil => simpa using h
      | cons d b =>
          rw [List.flatMap_cons, List.append_assoc, unescape?_escape_append] at hread
          cases hread
  | cons c a ih =>
      rw [List.flatMap_cons, List.append_assoc, unescape?_escape_append] at hread
      cases b with
      | nil => cases hread
      | cons d b =>
          rw [List.flatMap_cons, List.append_assoc, unescape?_escape_append, Option.some.injEq,
            Prod.mk.injEq] at hread
          obtain ⟨rfl, hrest⟩ := hread
          obtain ⟨rfl, hend⟩ := ih hrest (congrArg unescape? hrest)
          exact ⟨rfl, hend⟩

theorem quoted_append_inj {a b : String} {r s : List Char}
    (h : (quoted a).toList ++ r = (quoted b).toList ++ s) : a = b ∧ r = s := by
  rw [toList_quoted_append, toList_quoted_append] at h
  obtain ⟨hlist, hrest⟩ := escaped_append_inj (List.cons.inj h).2
  exact ⟨String.toList_injective hlist, hrest⟩

/-- A string, or an array or object of such values. -/
inductive Textual : Json → Prop
  | string (value : String) : Textual (.string value)
  | array {items : List Json} (h : ∀ j ∈ items, Textual j) : Textual (.array items)
  | object {members : List (String × Json)} (h : ∀ m ∈ members, Textual m.2) :
      Textual (.object members)

def renderMember (m : String × Json) : String :=
  quoted m.1 ++ ":" ++ m.2.render

theorem renderMember_append_inj {m m' : String × Json} {t u : List Char}
    (hvalue : ∀ {t u : List Char}, m.2.render.toList ++ t = m'.2.render.toList ++ u →
      m.2 = m'.2 ∧ t = u)
    (h : (renderMember m).toList ++ t = (renderMember m').toList ++ u) : m = m' ∧ t = u := by
  simp only [renderMember, String.toList_append, List.append_assoc] at h
  obtain ⟨hkey, hrest⟩ := quoted_append_inj h
  obtain ⟨hvalues, htail⟩ := hvalue (List.append_cancel_left hrest)
  exact ⟨Prod.ext hkey hvalues, htail⟩

theorem renderItems_eq_map (items : List Json) : renderItems items = items.map render := by
  induction items with
  | nil => rfl
  | cons j items ih => rw [renderItems, ih, List.map_cons]

theorem renderMembers_eq_map (members : List (String × Json)) :
    renderMembers members = members.map renderMember := by
  induction members with
  | nil => rfl
  | cons m members ih => rw [renderMembers, ih, List.map_cons, renderMember]

theorem toList_render_string (value : String) (r : List Char) :
    (Json.string value).render.toList ++ r =
      '"' :: (value.toList.flatMap (fun c => (escape c).toList) ++ '"' :: r) := by
  rw [render, toList_quoted_append]

theorem toList_render_array (items : List Json) (r : List Char) :
    (Json.array items).render.toList ++ r =
      '[' :: ((",".intercalate (items.map render)).toList ++ ']' :: r) := by
  simp [render, renderItems_eq_map]

theorem toList_render_object (members : List (String × Json)) (r : List Char) :
    (Json.object members).render.toList ++ r =
      '{' :: ((",".intercalate (members.map renderMember)).toList ++ '}' :: r) := by
  simp [render, renderMembers_eq_map]

/-- Where a list between brackets ends, and which members it has, is determined
if its members can be told apart and none begins with the closing bracket. -/
theorem listed_append_inj {α : Type} {P : α → Prop} {write : α → String} {close : Char}
    {xs ys : List α} {r s : List Char} (hclose : close.isDigit = false ∧ close ≠ ',')
    (hmember : ∀ y, P y → ∀ t u, close :: t ≠ (write y).toList ++ u)
    (hxs : ∀ x ∈ xs, P x) (hys : ∀ y ∈ ys, P y)
    (hdecodes : ∀ x ∈ xs, ∀ y, P y → ∀ t u,
      (write x).toList ++ t = (write y).toList ++ u → x = y ∧ t = u)
    (h : (",".intercalate (xs.map write)).toList ++ close :: r =
      (",".intercalate (ys.map write)).toList ++ close :: s) : xs = ys ∧ r = s := by
  -- Members of the two lists only, so that no others have to be told apart.
  have hends : ∀ t, Ends (fun x : Subtype P => write x) "," (close :: t) := fun t =>
    { stops := by simp [hclose.1]
      no_separator := by simp [hclose.2]
      no_member := fun y u => hmember y y.2 t u }
  rw [← List.attachWith_map_val hxs, ← List.attachWith_map_val hys] at h
  have htold : ∀ x ∈ xs.attachWith P hxs, Decodes (fun x : Subtype P => write x) x := by
    intro x hx y t u _ _ heq
    obtain ⟨hxy, htu⟩ := hdecodes x ((List.mem_attachWith hxs x).mp hx) y y.2 t u heq
    exact ⟨Subtype.ext hxy, htu⟩
  obtain ⟨hlists, hrest⟩ := intercalate_append_inj (by simp) htold (hends r) (hends s) h
  have hvals := congrArg (List.map Subtype.val) hlists
  rw [List.attachWith_map_subtype_val, List.attachWith_map_subtype_val] at hvals
  exact ⟨hvals, (List.cons.inj hrest).2⟩

theorem Textual.ne_closing {j : Json} (hj : Textual j) (t u : List Char) :
    ']' :: t ≠ j.render.toList ++ u := by
  cases hj with
  | string => simp [toList_render_string]
  | array => simp [toList_render_array]
  | object => simp [toList_render_object]

/-- What begins with the text of a value begins with the text of no other one. -/
theorem Textual.render_append_inj {j k : Json} (hj : Textual j) (hk : Textual k)
    {r s : List Char} (h : j.render.toList ++ r = k.render.toList ++ s) : j = k ∧ r = s := by
  -- The first character tells a string, an array and an object apart.
  induction hj generalizing k r s with
  | string value =>
      cases hk with
      | string value' =>
          obtain ⟨rfl, hrest⟩ := quoted_append_inj h
          exact ⟨rfl, hrest⟩
      | array => simp [toList_render_string, toList_render_array] at h
      | object => simp [toList_render_string, toList_render_object] at h
  | @array items hitems ih =>
      cases hk with
      | string => simp [toList_render_string, toList_render_array] at h
      | @array items' hitems' =>
          rw [toList_render_array, toList_render_array] at h
          obtain ⟨rfl, hrest⟩ := listed_append_inj (by decide)
            (fun y hy t u => hy.ne_closing t u) hitems hitems'
            (fun x hx y hy t u => ih x hx hy) (List.cons.inj h).2
          exact ⟨rfl, hrest⟩
      | object => simp [toList_render_array, toList_render_object] at h
  | @object members hmembers ih =>
      cases hk with
      | string => simp [toList_render_string, toList_render_object] at h
      | array => simp [toList_render_array, toList_render_object] at h
      | @object members' hmembers' =>
          rw [toList_render_object, toList_render_object] at h
          obtain ⟨rfl, hrest⟩ := listed_append_inj (by decide)
            (fun y _ t u => by simp [renderMember, toList_quoted_append]) hmembers hmembers'
            (fun x hx y hy t u => renderMember_append_inj (ih x hx hy)) (List.cons.inj h).2
          exact ⟨rfl, hrest⟩

theorem Textual.eq_of_render_eq {j k : Json} (hj : Textual j) (hk : Textual k)
    (h : j.render = k.render) : j = k :=
  (hj.render_append_inj hk (r := []) (s := []) (by rw [h])).1

end Json

end Polish
