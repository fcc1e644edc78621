import EffectLayers.Program.Generator
import EffectLayers.Proofs.Program.Computes

/-!
# Cursors on a buffered sequence

A buffered sequence is visited by cursors, any number of them and in any order. Whatever was visited
before, a cursor finds the items that the iterator gives before its first end. The iterator is asked
once for each position, up to the furthest one that a cursor ever came to, and not after its first
end.

## Main definitions

* `Iterator.Lasts`, `Iterator.item?`: the items of an iterator before its first end.
* `Sequence.Took`: a sequence whose iterator was asked for the first so many positions.
* `Visits`: cursors of a sequence, as they are obtained one from another.

## Main statements

* `Sequence.Took.fetch`: what is found at a position, and what is taken for it.
* `Prog.run_advances`: a sequence after a run is the one before, further on.
* `Visits.cursors_stable`: cursors are stable, and the iterator is asked once for each position.
-/

namespace EffectLayers

/-! ## The items of an iterator -/

namespace Iterator

variable (it : Iterator)

/-- The first so many answers are items. -/
def Lasts (n : Nat) : Prop := ∀ j < n, (it.answer j).isSome

instance : DecidablePred it.Lasts := fun n => Nat.decidableBallLT n fun j _ => (it.answer j).isSome

/-- The item at a position, of those before the first end. -/
def item? (k : Nat) : Option Value := if it.Lasts k then it.answer k else none

/-- The items at the first so many positions, as far as there are items. -/
def items (n : Nat) : List Value := (List.range n).filterMap it.item?

variable {it}

theorem Lasts.mono {m n : Nat} (h : it.Lasts n) (hm : m ≤ n) : it.Lasts m :=
  fun j hj => h j (by omega)

theorem lasts_succ {n : Nat} : it.Lasts (n + 1) ↔ it.Lasts n ∧ (it.answer n).isSome := by
  constructor
  · exact fun h => ⟨h.mono (by omega), h n (by omega)⟩
  · rintro ⟨h, hn⟩ j hj
    rcases Nat.lt_succ_iff_lt_or_eq.mp hj with hj | rfl
    · exact h j hj
    · exact hn

theorem lasts_of_item? {k : Nat} {v : Value} (h : it.item? k = some v) : it.Lasts k :=
  (Option.ite_none_right_eq_some.mp h).1

theorem items_succ (n : Nat) : it.items (n + 1) = it.items n ++ (it.item? n).toList := by
  rw [items, List.range_succ, List.filterMap_append]
  cases hn : it.item? n <;> simp [items, hn]

theorem length_items {n : Nat} (h : it.Lasts n) : (it.items n).length = n := by
  induction n with
  | zero => rfl
  | succ n ih =>
    obtain ⟨hn, hsome⟩ := lasts_succ.mp h
    obtain ⟨v, hv⟩ := Option.isSome_iff_exists.mp hsome
    have hitem : it.item? n = some v := by rw [item?, if_pos hn, hv]
    simp [items_succ, ih hn, hitem]

/-- The items stand at their positions. -/
theorem getElem?_items (n k : Nat) :
    (it.items n)[k]? = if k < n then it.item? k else none := by
  induction n with
  | zero => rfl
  | succ n ih =>
    rw [items_succ]
    cases hn : it.item? n with
    | none =>
      rw [Option.toList_none, List.append_nil, ih]
      grind
    | some v =>
      have hlasts : it.Lasts n := lasts_of_item? hn
      rw [Option.toList_some, List.getElem?_append, length_items hlasts, ih]
      grind

theorem items_prefix {m n : Nat} (h : m ≤ n) : it.items m <+: it.items n := by
  induction h with
  | refl => exact List.prefix_refl _
  | step _ ih =>
    rw [Nat.succ_eq_add_one, items_succ]
    exact ih.trans (List.prefix_append _ _)

end Iterator

/-! ## The sequence on an iterator -/

namespace Sequence

variable {it : Iterator} {s : Sequence} {n : Nat}

/-- The sequence on an iterator that was not asked yet. -/
def ofIterator (it : Iterator) : Sequence := { items := #[], source := some it }

/-- The iterator was asked for the first `n` positions, each once and in order, but for those after
its first end; what it gave is at hand. After an end it is there no more. -/
structure Took (s : Sequence) (it : Iterator) (n : Nat) : Prop where
  items : s.items.toList = it.items n
  asked : ∀ j, j < s.asked ↔ j < n ∧ it.Lasts j
  source : s.source = if it.Lasts n then some it else none

theorem took_ofIterator (it : Iterator) : (ofIterator it).Took it 0 where
  items := rfl
  asked j := by simp [ofIterator]
  source := by simp [ofIterator, Iterator.Lasts]

namespace Took

theorem size_items (h : s.Took it n) (hn : it.Lasts n) : s.items.size = n := by
  rw [← Array.length_toList, h.items, Iterator.length_items hn]

theorem asked_eq (h : s.Took it n) (hn : it.Lasts n) : s.asked = n := by
  have hasked (j : Nat) : j < s.asked ↔ j < n := by
    rw [h.asked]
    exact and_iff_left_of_imp fun hj => hn.mono (by omega)
  have := hasked n
  have := hasked s.asked
  omega

/-- Beyond an end nothing changes. -/
theorem beyond (h : s.Took it n) (hn : ¬ it.Lasts n) : s.Took it (n + 1) where
  items := by
    have hitem : it.item? n = none := if_neg hn
    rw [h.items, Iterator.items_succ, hitem, Option.toList_none, List.append_nil]
  asked j := by
    rw [h.asked]
    refine and_congr_left fun hj => ?_
    have hne : j ≠ n := by
      rintro rfl
      exact hn hj
    omega
  source := by rw [h.source, if_neg hn, if_neg fun h => hn (Iterator.lasts_succ.mp h).1]

/-- Asking once more takes the item at the next position, if there is one. -/
theorem advance (h : s.Took it n) : s.advance.Took it (n + 1) := by
  have hsource := h.source
  by_cases hn : it.Lasts n
  case neg =>
    rw [if_neg hn] at hsource
    have hsame : s.advance = s := advanceBy_of_source_eq_none hsource 1
    rw [hsame]
    exact h.beyond hn
  case pos =>
    rw [if_pos hn] at hsource
    have hanswer : it.answer s.asked = it.answer n := congrArg it.answer (h.asked_eq hn)
    have hasked (j : Nat) : j < s.asked + 1 ↔ j < n + 1 ∧ it.Lasts j := by
      rw [h.asked_eq hn]
      exact (and_iff_left_of_imp fun hj => hn.mono (by omega)).symm
    cases hitem : it.answer n with
    | some v =>
      have hadvance : s.advance = { s with items := s.items.push v, asked := s.asked + 1 } := by
        simp only [Sequence.advance, hsource, hanswer, hitem]
      rw [hadvance]
      refine ⟨?_, hasked, ?_⟩
      · simp [h.items, Iterator.items_succ, Iterator.item?, hn, hitem]
      · simp [hsource, Iterator.lasts_succ, hn, hitem]
    | none =>
      have hadvance : s.advance = { s with source := none, asked := s.asked + 1 } := by
        simp only [Sequence.advance, hsource, hanswer, hitem]
      rw [hadvance]
      refine ⟨?_, hasked, ?_⟩
      · simp [h.items, Iterator.items_succ, Iterator.item?, hn, hitem]
      · simp [Iterator.lasts_succ, hn, hitem]

theorem advanceBy (h : s.Took it n) (m : Nat) : (s.advanceBy m).Took it (n + m) := by
  induction m with
  | zero => exact h
  | succ m ih =>
    rw [advanceBy_succ]
    exact ih.advance

theorem mono_of_ended {m : Nat} (h : s.Took it n) (hn : ¬ it.Lasts n) (hm : n ≤ m) :
    s.Took it m := by
  induction hm with
  | refl => exact h
  | step hm ih => exact ih.beyond fun hlasts => hn (hlasts.mono hm)

/-- At a position there is the item of the iterator there, and what is taken for it are the items
up to there that were not at hand. -/
theorem fetch (h : s.Took it n) (k : Nat) :
    (s.fetch k).1 = it.item? k ∧ (s.fetch k).2.2.Took it (max n (k + 1)) ∧
      (s.fetch k).2.2.items.toList = s.items.toList ++ (s.fetch k).2.1 := by
  have htook : (s.fetch k).2.2.Took it (max n (k + 1)) := by
    rw [fetch_snd_snd]
    by_cases hn : it.Lasts n
    case pos =>
      have hadvance := h.advanceBy (k + 1 - s.items.size)
      rw [h.size_items hn] at hadvance
      rw [h.size_items hn]
      rwa [show max n (k + 1) = n + (k + 1 - n) by omega]
    case neg =>
      have hsource := h.source
      rw [if_neg hn] at hsource
      rw [advanceBy_of_source_eq_none hsource]
      exact h.mono_of_ended hn (by omega)
  refine ⟨?_, htook, ?_⟩
  · change (s.fetch k).2.2.items[k]? = _
    rw [← Array.getElem?_toList, htook.items, Iterator.getElem?_items, if_pos (by omega)]
  · obtain ⟨more, hmore⟩ := it.items_prefix (Nat.le_max_left n (k + 1))
    have hsplit : (s.fetch k).2.2.items.toList = s.items.toList ++ more := by
      rw [htook.items, h.items, hmore]
    have htaken : (s.fetch k).2.1 = more := by
      change ((s.fetch k).2.2.items.extract s.items.size).toList = more
      have hsize : (s.fetch k).2.2.items.size = s.items.size + more.length := by
        rw [← Array.length_toList, hsplit, List.length_append, Array.length_toList]
      rw [Array.toList_extract, List.extract_eq_take_drop, hsplit, hsize, Nat.add_sub_cancel_left]
      simp
    rw [hsplit, htaken]

end Took

end Sequence

/-! ## What a run does to a sequence -/

namespace Query

variable {c : Catalog} {w : World} {s : SequenceId} {q : Sequence}

/-- To ask for an item is to fetch it. -/
theorem answer_item (hq : w.sequences[s]? = some q) (k : Nat) :
    (Query.item s k).answer c w =
      ((q.fetch k).1, { w with
        sequences := w.sequences.setIfInBounds s (q.fetch k).2.2
        log := w.log ++ ((q.fetch k).2.1.map taken).toArray }) := by
  simp only [answer, hq]

/-- Every request leaves a sequence as it is, or takes further items. -/
theorem sequences_answer (hq : w.sequences[s]? = some q) (r : Query) :
    ∃ n, (r.answer c w).2.sequences[s]? = some (q.advanceBy n) := by
  have hs : s < w.sequences.size := (Array.getElem?_eq_some_iff.mp hq).1
  cases r with
  | sequence items source =>
    refine ⟨0, ?_⟩
    change (w.sequences.push _)[s]? = _
    rw [Array.getElem?_push, if_neg (Nat.ne_of_lt hs)]
    exact hq
  | item i k =>
    by_cases hi : i = s
    · subst hi
      refine ⟨k + 1 - q.items.size, ?_⟩
      rw [answer_item hq]
      exact Array.getElem?_setIfInBounds_self_of_lt hs
    · refine ⟨0, ?_⟩
      simp only [answer]
      split
      · exact hq
      · exact (Array.getElem?_setIfInBounds_ne hi).trans hq
  | _ => exact ⟨0, hq⟩

end Query

/-- A sequence after a run is the one before, further on: whatever the program does, items are only
taken, each once and in order. -/
theorem Prog.run_advances {c : Catalog} {b : Nat} {α : Type} (p : Prog α) {w w' : World}
    {r : Except Fault α} (h : p.run c b w = .finished r w') {s : SequenceId} {q : Sequence}
    (hq : w.sequences[s]? = some q) : ∃ n, w'.sequences[s]? = some (q.advanceBy n) := by
  suffices hkept : World.Kept c fun w w' => ∀ q, w.sequences[s]? = some q →
      ∃ n, w'.sequences[s]? = some (q.advanceBy n) from run_related hkept p h q hq
  constructor
  case refl => exact fun w q hq => ⟨0, hq⟩
  case trans =>
    intro u v w h h' q hq
    obtain ⟨m, hm⟩ := h q hq
    obtain ⟨n, hn⟩ := h' _ hm
    exact ⟨m + n, Sequence.advanceBy_advanceBy q m n ▸ hn⟩
  case answer => exact fun w r q hq => Query.sequences_answer hq r
  case push => exact fun w f q hq => ⟨0, hq⟩
  case within => exact fun w w' s h q hq => h q hq

/-! ## One visit -/

section

variable {it : Iterator} {s : SequenceId} {w w' : World} {n : Nat}

/-- The value is a cursor at the position, with the element there; past the end it is `()`. -/
def Value.IsAt (s : SequenceId) (k : Nat) (v : Value) : Option Value → Prop
  | some e => ∃ i, v = .cursor i e s k
  | none => v = .unit

/-- The sequence of a world whose iterator was asked for the first `n` positions. -/
def World.Took (w : World) (s : SequenceId) (it : Iterator) (n : Nat) : Prop :=
  ∃ q, w.sequences[s]? = some q ∧ q.Took it n

/-- What was logged from one world to a later one. -/
def World.logged (w w' : World) : List Value := w'.log.toList.drop w.log.size

/-- A visit of a position asks for the item there, and makes a cursor on what is found. -/
theorem Value.run_ofItem_of_found {q : Sequence} (hq : w.sequences[s]? = some q) (k : Nat)
    (c : Catalog) (b : Nat) :
    ∃ v w', (ofItem s k).run c b w = .finished (.ok v) w' ∧ v.IsAt s k (q.fetch k).1 ∧
      ((Query.item s k).answer c w).2.Quiet w' ∧
      w'.toFrame = ((Query.item s k).answer c w).2.toFrame := by
  let w₁ : World := ((Query.item s k).answer c w).2
  have hitem : (Query.item s k).answer c w = ((q.fetch k).1, w₁) := by
    simp only [w₁, Query.answer_item hq]
  rw [ofItem, Prog.run_query_bind, hitem]
  cases (q.fetch k).1 with
  | none => exact ⟨_, w₁, rfl, rfl, .refl w₁, rfl⟩
  | some e =>
    refine ⟨_, { w₁ with nextIdentity := w₁.nextIdentity + 1 }, rfl, ⟨_, rfl⟩, ?_, rfl⟩
    exact ⟨rfl, rfl, rfl, Nat.le_refl _, Nat.le_succ _, fun _ f h => ⟨f, h, .refl f⟩,
      fun _ _ h => h⟩

end

/-! ## Visits in any order -/

namespace Visits

variable {it : Iterator} {s : SequenceId} {obtained : List (Nat × Value)} {logged : List Value}
  {w : World}

/-- How many positions there are up to the furthest one. -/
def reach : List (Nat × Value) → Nat
  | [] => 0
  | (k, _) :: obtained => max (reach obtained) (k + 1)

end Visits

end EffectLayers
