import EffectLayers.Text.Layout

/-!
# The layouts of a document

However wide the page is and wherever its groups break, a document is printed in its texts with
gaps between them.

## Main definitions

* `Doc.Lays`: the document is printed as these characters, for some choice of line breaks.
* `Text.IsGap`: nothing but blanks and line breaks.

## Main statements

* `Doc.lays_render`: what is rendered is one of the layouts.
* `Doc.Lays.delimited`: the layouts of items between delimiters.
-/

namespace EffectLayers

namespace Text

/-- Whether the character may stand in a gap between texts. -/
def isGapChar (c : Char) : Bool := c == ' ' || c == '\n'

/-- Nothing but blanks and line breaks. -/
def IsGap (cs : List Char) : Prop := ∀ c ∈ cs, isGapChar c = true

/-- Drop the gap at the front. -/
def skipGap (cs : List Char) : List Char := cs.dropWhile isGapChar

theorem skipGap_cons {c : Char} (hc : isGapChar c = false) (cs : List Char) :
    skipGap (c :: cs) = c :: cs := List.dropWhile_cons_of_neg (by simp [hc])

theorem skipGap_append {gap : List Char} (hgap : IsGap gap) {c : Char} (hc : isGapChar c = false)
    (cs : List Char) : skipGap (gap ++ c :: cs) = c :: cs := by
  rw [skipGap, List.dropWhile_append_of_pos hgap, ← skipGap, skipGap_cons hc]

end Text

namespace Doc

open Text

/-- The document is printed as the characters if each of its line breaks is taken or not, and a
line may begin at any column. -/
inductive Lays : Doc → List Char → Prop where
  | text (s : String) : Lays (.text s) s.toList
  | flat (s : String) : Lays (.line s) s.toList
  | broken (s : String) (n : Nat) : Lays (.line s) ('\n' :: List.replicate n ' ')
  | append {a b : Doc} {s t : List Char} (ha : Lays a s) (hb : Lays b t) :
      Lays (.append a b) (s ++ t)
  | nest {n : Nat} {d : Doc} {s : List Char} (h : Lays d s) : Lays (.nest n d) s
  | group {d : Doc} {s : List Char} (h : Lays d s) : Lays (.group d) s

theorem lays_flat (d : Doc) : d.Lays d.flat.toList := by
  induction d with
  | text s => exact .text s
  | line s => exact .flat s
  | append a b iha ihb =>
    rw [flat, String.toList_append]
    exact .append iha ihb
  | nest n d ih => exact .nest ih
  | group d ih => exact .group ih

theorem lays_layout (page : Nat) (d : Doc) (indent : Nat) (rest : List (Nat × Doc))
    (column : Nat) : d.Lays (d.layout page indent rest column).1.toList := by
  induction d generalizing indent rest column with
  | text s => exact .text s
  | line s =>
    simp only [layout, String.toList_append, String.toList_ofList]
    exact .broken s _
  | append a b iha ihb =>
    rw [layout, String.toList_append]
    exact .append (iha ..) (ihb ..)
  | nest n d ih => exact .nest (ih ..)
  | group d ih =>
    rw [layout]
    split
    · exact .group d.lays_flat
    · exact .group (ih ..)

/-- What is rendered is one of the layouts. -/
theorem lays_render (page : Nat) (d : Doc) : d.Lays (d.render page).toList :=
  lays_layout page d 0 [] 0

namespace Lays

variable {d : Doc} {s : List Char}

theorem of_text {t : String} (h : (Doc.text t).Lays s) : s = t.toList := by
  cases h
  rfl

theorem of_append {a b : Doc} (h : (a ++ b).Lays s) :
    ∃ t u, a.Lays t ∧ b.Lays u ∧ s = t ++ u := by
  cases h with
  | append ha hb => exact ⟨_, _, ha, hb, rfl⟩

theorem of_nest {n : Nat} (h : (Doc.nest n d).Lays s) : d.Lays s := by
  cases h with
  | nest h => exact h

theorem of_group (h : (Doc.group d).Lays s) : d.Lays s := by
  cases h with
  | group h => exact h

/-- A line break is a gap, and so is a blank in its place or nothing. -/
theorem gap {t : String} (h : (Doc.line t).Lays s) (ht : IsGap t.toList) : IsGap s := by
  cases h with
  | flat => exact ht
  | broken n =>
    intro c hc
    rcases List.mem_cons.mp hc with rfl | hc
    · rfl
    · rw [List.eq_of_mem_replicate hc]
      rfl

/-- Items between delimiters are printed with gaps next to these. -/
theorem delimited {opening closing : String} {items : List Doc}
    (h : (Doc.delimited opening items closing).Lays s) :
    ∃ g t g', IsGap g ∧ (commaSeparated items).Lays t ∧ IsGap g' ∧
      s = opening.toList ++ (g ++ (t ++ (g' ++ closing.toList))) := by
  obtain ⟨u, v, hu, hv, rfl⟩ := h.of_group.of_append
  obtain ⟨w, g', hw, hg', rfl⟩ := hu.of_append
  obtain ⟨x, y, hx, hy, rfl⟩ := hw.of_append
  obtain rfl := hx.of_text
  obtain rfl := hv.of_text
  have hnone : IsGap "".toList := nofun
  cases items with
  | nil =>
    refine ⟨y, [], g', hy.of_nest.gap hnone, .text "", hg'.gap hnone, ?_⟩
    simp only [List.append_assoc, List.nil_append]
  | cons d ds =>
    obtain ⟨g, t, hg, ht, rfl⟩ := hy.of_nest.of_append
    refine ⟨g, t, g', hg.gap hnone, ht, hg'.gap hnone, ?_⟩
    simp only [List.append_assoc]

/-- Further items are printed after a comma and a gap. -/
theorem commaSeparated_cons {e : Doc} {ds : List Doc}
    (h : (commaSeparated (d :: e :: ds)).Lays s) :
    ∃ t g u, d.Lays t ∧ IsGap g ∧ (commaSeparated (e :: ds)).Lays u ∧
      s = t ++ ',' :: (g ++ u) := by
  obtain ⟨t, v, ht, hv, rfl⟩ := h.of_append
  obtain ⟨comma, w, hcomma, hw, rfl⟩ := hv.of_append
  obtain ⟨g, u, hg, hu, rfl⟩ := hw.of_append
  obtain rfl := hcomma.of_text
  exact ⟨t, g, u, ht, hg.gap (by simp [IsGap, isGapChar]), hu, rfl⟩

end Lays

end Doc

end EffectLayers
