import EffectLayers.Value.Basic

/-!
# Pull sequences

A sequence remembers the items taken from its source, so that any position already seen can be
visited again. The source is asked only for positions not seen yet, and never again after it
said that it has no item.

## Main definitions

* `Iterator`: what a source answers, each time that it is asked.
* `Supply`: an answer of a source that is given by its answers.
* `Sequence`: the items taken, and the source.
* `Sequence.advance`, `Sequence.advanceBy`: what is taken when the source is asked.
* `Sequence.fetch`: the item at a position, with what had to be taken for it.
-/

namespace EffectLayers

/-- A source of items, which is asked for one after another. -/
structure Iterator where
  /-- What it answers once it was asked so many times: an item, or that it has none now. -/
  answer : Nat → Option Value
  /-- The values that it refers to once it was asked so many times. -/
  holds : Nat → List Value

/-- What a source answers when asked for an item. -/
inductive Supply where
  | item (v : Value)
  /-- There is no item now. The source refers to `v` until it has answered so. -/
  | pause (v : Value)

namespace Supply

/-- The value that a source refers to for an answer. -/
def value : Supply → Value
  | item v => v
  | pause v => v

def item? : Supply → Option Value
  | item v => some v
  | pause _ => none

end Supply

/-- The source that gives the answers of a list, and has no item after them. -/
def Iterator.ofAnswers (answers : List Supply) : Iterator where
  answer n := answers[n]?.bind Supply.item?
  holds n := (answers.drop n).map Supply.value

/-- A pull sequence. -/
structure Sequence where
  /-- The items at hand: those it was made of, and those taken so far. -/
  items : Array Value
  /-- What hands out further items, until it says that it has none. -/
  source : Option Iterator
  /-- How many times the source was asked. -/
  asked : Nat := 0

namespace Sequence

/-- Ask the source for one more item, unless it said before that it has none. -/
def advance (s : Sequence) : Sequence :=
  match s.source with
  | none => s
  | some iterator =>
    match iterator.answer s.asked with
    | some v => { s with items := s.items.push v, asked := s.asked + 1 }
    | none => { s with source := none, asked := s.asked + 1 }

/-- Ask for so many further items, or for as many as there are. -/
def advanceBy : Nat → Sequence → Sequence
  | 0, s => s
  | n + 1, s => advanceBy n s.advance

/-- The item at a position, the items taken for it, and the sequence afterwards. -/
def fetch (s : Sequence) (position : Nat) : Option Value × List Value × Sequence :=
  let after := s.advanceBy (position + 1 - s.items.size)
  (after.items[position]?, (after.items.extract s.items.size).toList, after)

/-- The values that a sequence refers to. -/
def references (s : Sequence) : List Value :=
  s.items.toList ++ (s.source.map fun iterator => iterator.holds s.asked).getD []

theorem advanceBy_advance (s : Sequence) (n : Nat) :
    s.advance.advanceBy n = (s.advanceBy n).advance := by
  induction n generalizing s with
  | zero => rfl
  | succ n ih => exact ih s.advance

theorem advanceBy_succ (s : Sequence) (n : Nat) :
    s.advanceBy (n + 1) = (s.advanceBy n).advance :=
  s.advanceBy_advance n

theorem advanceBy_advanceBy (s : Sequence) (m n : Nat) :
    (s.advanceBy m).advanceBy n = s.advanceBy (m + n) := by
  induction n with
  | zero => rfl
  | succ n ih => rw [advanceBy_succ, ih, Nat.add_succ, advanceBy_succ]

/-- Without a source nothing is taken. -/
theorem advanceBy_of_source_eq_none {s : Sequence} (h : s.source = none) (n : Nat) :
    s.advanceBy n = s := by
  induction n with
  | zero => rfl
  | succ n ih => rw [advanceBy_succ, ih, advance, h]

theorem fetch_snd_snd (s : Sequence) (position : Nat) :
    (s.fetch position).2.2 = s.advanceBy (position + 1 - s.items.size) := rfl

end Sequence

end EffectLayers
