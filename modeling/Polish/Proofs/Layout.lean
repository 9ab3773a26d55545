import Mathlib.Data.List.Chain
import Polish.Proofs.Scanning

/-!
Layouts: the texts that have given tokens.  A layout writes the lexemes of the
tokens in order with blanks before, between and after them, and where two
numbers or two names are neighbours the blanks between them may not be left
out.

A text is a layout of well-formed tokens exactly if it scans to them
(`layout_of_scans`, `scans_of_layout`): where the next lexeme would go on with
the one before it, the two are of one kind and need a blank.
-/

namespace Polish

open Token

/-- Two tokens that are read as one if nothing stands between them. -/
def Token.Merges (t u : Token) : Prop :=
  t.kind = .number ∧ u.kind = .number ∨ t.kind = .name ∧ u.kind = .name

def spread : List (Token × String) → String
  | [] => ""
  | (t, gap) :: items => t.lexeme ++ gap ++ spread items

/-- The text `s` is a layout of the tokens `ts`: their lexemes in order, with
blanks in front of them and behind each of them, and not without blanks where
two neighbours would be read as one. -/
def Layout (ts : List Token) (s : String) : Prop :=
  ∃ (lead : String) (items : List (Token × String)),
    s = lead ++ spread items ∧ items.map Prod.fst = ts ∧
      (∀ c ∈ lead.toList, Text.isBlank c = true) ∧
      (∀ i ∈ items, ∀ c ∈ i.2.toList, Text.isBlank c = true) ∧
      items.IsChain fun i j => i.1.Merges j.1 → i.2 ≠ ""

/-- The tokens that merge are those where the second begins with a character
that goes on with the first. -/
theorem Token.merges_iff {t u : Token} {c : Char} (hc : TokenKind.ofFirst? c = some u.kind) :
    t.Merges u ↔ t.kind.continues c = true := by
  constructor
  · rintro (⟨ht, hu⟩ | ⟨ht, hu⟩)
    · rw [hu] at hc
      rw [ht]
      exact TokenKind.isDigit_of_ofFirst? hc
    · rw [hu] at hc
      rw [ht]
      exact TokenKind.isAlpha_of_ofFirst? hc
  · intro hgo
    have hkind : u.kind = t.kind := by
      rw [TokenKind.ofFirst?_of_continues hgo] at hc
      exact (Option.some.inj hc).symm
    rw [Merges, hkind]
    cases ht : t.kind with
    | number => exact .inl ⟨rfl, rfl⟩
    | name => exact .inr ⟨rfl, rfl⟩
    | opening => simp [ht, TokenKind.continues] at hgo
    | closing => simp [ht, TokenKind.continues] at hgo
    | string => simp [ht, TokenKind.continues] at hgo

theorem Scans.layout_ofList {s : List Char} {ts : List Token} (h : Scans s ts) :
    Layout ts (String.ofList s) := by
  induction h with
  | nil => exact ⟨"", [], rfl, rfl, by simp, by simp, .nil⟩
  | @blank c s ts hc _ ih =>
      obtain ⟨lead, items, hs, hts, hlead, hgaps, hchain⟩ := ih
      refine ⟨String.ofList [c] ++ lead, items, ?_, hts, ?_, hgaps, hchain⟩
      · rw [String.append_assoc, ← hs, ← String.ofList_append, List.singleton_append]
      · simpa using ⟨hc, hlead⟩
  | @token t s ts ht hstop hs ih =>
      obtain ⟨lead, items, hspread, rfl, hlead, hgaps, hchain⟩ := ih
      refine ⟨"", (t, lead) :: items, ?_, rfl, by simp, ?_, ?_⟩
      · rw [String.ofList_append, String.ofList_toList, hspread, String.empty_append, spread,
          String.append_assoc]
      · exact List.forall_mem_cons.mpr ⟨hlead, hgaps⟩
      · refine List.isChain_cons.mpr ⟨?_, hchain⟩
        -- Without blanks the next lexeme would begin with a character that goes on with this one.
        rintro ⟨u, gap⟩ hu hmerge rfl
        obtain ⟨items, rfl⟩ := List.head?_eq_some_iff.mp hu
        obtain ⟨d, tail, hlexeme, hd⟩ := (hs.wellFormed u (by simp)).lexeme_eq_cons
        have hhead : s = d :: (tail ++ gap.toList ++ (spread items).toList) := by
          simpa [spread, hlexeme] using congrArg String.toList hspread
        rw [hhead, Text.stops_cons, (merges_iff hd).mp hmerge] at hstop
        cases hstop

theorem layout_of_scans {s : String} {ts : List Token} (h : Scans s.toList ts) :
    Layout ts s := by
  simpa using h.layout_ofList

theorem stops_gap_append_spread {t : Token} {gap : String} {items : List (Token × String)}
    (hwell : ∀ i ∈ items, i.1.WellFormed) (hgap : ∀ c ∈ gap.toList, Text.isBlank c = true)
    (hchain : ∀ i ∈ items.head?, t.Merges i.1 → gap ≠ "") :
    Text.Stops t.kind.continues (gap.toList ++ (spread items).toList) := by
  intro c hc
  by_contra hgo
  rw [Bool.not_eq_false] at hgo
  cases hlist : gap.toList with
  | cons d tail =>
      obtain rfl : d = c := by simpa [hlist] using hc
      have hblank := hgap d (by simp [hlist])
      have hfirst := TokenKind.ofFirst?_of_continues hgo
      rw [TokenKind.ofFirst?_of_isBlank hblank] at hfirst
      cases hfirst
  | nil =>
      cases items with
      | nil => simp [hlist, spread] at hc
      | cons i items =>
          obtain ⟨d, tail, hlexeme, hd⟩ := (hwell i (by simp)).lexeme_eq_cons
          obtain rfl : d = c := by simpa [hlist, spread, hlexeme] using hc
          refine hchain i rfl ((merges_iff hd).mpr hgo) ?_
          exact String.toList_eq_nil_iff.mp hlist

theorem scans_spread {items : List (Token × String)} (hwell : ∀ i ∈ items, i.1.WellFormed)
    (hgaps : ∀ i ∈ items, ∀ c ∈ i.2.toList, Text.isBlank c = true)
    (hchain : items.IsChain fun i j => i.1.Merges j.1 → i.2 ≠ "") :
    Scans (spread items).toList (items.map Prod.fst) := by
  induction items with
  | nil => exact .nil
  | cons i items ih =>
      rw [List.forall_mem_cons] at hwell hgaps
      rw [List.isChain_cons] at hchain
      have hrest := ih hwell.2 hgaps.2 hchain.2
      have hstop := stops_gap_append_spread hwell.2 hgaps.1 hchain.1
      have h := Scans.token hwell.1 hstop (hrest.append_blanks hgaps.1)
      simpa [spread] using h

theorem scans_of_layout {s : String} {ts : List Token} (hts : ∀ t ∈ ts, t.WellFormed)
    (h : Layout ts s) : Scans s.toList ts := by
  obtain ⟨lead, items, rfl, rfl, hlead, hgaps, hchain⟩ := h
  rw [String.toList_append]
  refine (scans_spread ?_ hgaps hchain).append_blanks hlead
  intro i hi
  exact hts i.1 (List.mem_map_of_mem hi)

/-- The tokens of a text are the well-formed tokens that it is a layout of. -/
theorem tokenize_eq_ok_iff_layout (s : String) (ts : List Token) :
    tokenize s = .ok ts ↔ (∀ t ∈ ts, t.WellFormed) ∧ Layout ts s := by
  constructor
  · intro h
    have hscans := scans_of_tokenize h
    exact ⟨hscans.wellFormed, layout_of_scans hscans⟩
  · rintro ⟨hts, hlayout⟩
    exact tokenize_of_scans (scans_of_layout hts hlayout)

end Polish
