import EffectLayers.Definition

/-!
# Generators as function values

A generator is also a function value: called with the result of the previous step it answers
`()` once exhausted, else the list of what it produces and the generator to go on with.

## Main definitions

* `Source.ofValue`: the source that starts by calling a function value.
* `Source.generator`, `Source.reify`: a state of a source, and a source, as function values.
* `Source.unfold`, `Source.ofCursor`, `Source.mapYields`: sources from a step function, from a
  pull sequence, and with their yields mapped.
-/

namespace EffectLayers

namespace Value

/-- What a generator answered: nothing once exhausted, else a pair. -/
def asStep : Value → Prog (Option (Value × Value))
  | unit => pure none
  | answer => do
    match ← answer.asList with
    | [produced, next] => pure (some (produced, next))
    | _ => throw (.expected .pair answer)

/-- A cursor value with a fresh identity on an item of a sequence, `()` past its end. -/
def ofItem (s : SequenceId) (position : Nat) : Prog Value := do
  match ← Prog.query (.item s position) with
  | none => pure unit
  | some element => pure (cursor (← Prog.query .freshIdentity) element s position)

/-- A cursor on the first of the items. -/
def cursorOfList (items : List Value) : Prog Value := do
  ofItem (← Prog.query (.sequence items none)) 0

/-- A cursor on the first item that a source hands out. -/
def cursorOfSource (source : Iterator) : Prog Value := do
  ofItem (← Prog.query (.sequence [] (some source))) 0

/-- The value itself, if it is a cursor or the end of a sequence. -/
def asCursor : Value → Prog Value
  | cursor i element s position => pure (cursor i element s position)
  | unit => pure unit
  | found => throw (.expected .cursor found)

/-- The element that a cursor stands on, `()` past the end. -/
def element : Value → Value
  | cursor _ element _ _ => element
  | _ => unit

/-- The cursor on the next element, `()` past the end. -/
def pull : Value → Prog Value
  | cursor _ _ s position => ofItem s (position + 1)
  | _ => pure unit

end Value

namespace Source

/-- The source started by calling `f`, whose states are generator functions. -/
def ofValue (f : Value) : Source where
  State := Value
  start := ⟨f.call .unit, { values := [f] }⟩
  step g input := do (← g.call input).asStep
  holds g := { values := [g] }

/-- A state of a source as a generator function, for at most so many steps. -/
def generatorFrom (source : Source) : Nat → source.State → Callback
  | 0, state => ⟨fun _ => .halt .exhausted, source.holds state⟩
  | n + 1, state =>
    { code := fun input => do
        match ← source.step state input with
        | none => pure .unit
        | some (produced, next) =>
          pure (.list [produced, ← (source.generatorFrom n next).reify])
      holds := source.holds state }

/-- A state of a source as a function value. -/
def generator (source : Source) (state : source.State) : Prog Value :=
  .bounded fun n => (source.generatorFrom n state).reify

/-- The source as a function value that starts a fresh generator, whatever its argument. -/
def reify (source : Source) : Prog Value :=
  (source.start.map fun start => do source.generator (← start)).ignoring.reify

/-- The source that threads a state through calls of `f` with the state and the input. -/
def unfold (state f : Value) : Source where
  State := Value
  start := ⟨pure state, { values := [state, f] }⟩
  step state input := do (← f.call (.list [state, input])).asStep
  holds state := { values := [state, f] }

/-- The source that yields the elements from a cursor on, whatever it is resumed with. The
next element is pulled when its predecessor is yielded. -/
def ofCursor (cursor : Value) : Source where
  State := Value
  start := ⟨pure cursor, { values := [cursor] }⟩
  step at_ _ := do
    match at_ with
    | .cursor .. => pure (some (at_.element, ← at_.pull))
    | _ => pure none
  holds at_ := { values := [at_] }

/-- The source with everything it yields passed through `f`. -/
def mapYields (source : Source) (f : Callback) : Source where
  State := source.State
  start := ⟨source.start.code, source.start.holds ++ f.holds⟩
  step state input := do
    match ← source.resume state input with
    | none => pure none
    | some (produced, next) => do
      let mapped ← Prog.holding (source.holds next) (f.call produced)
      pure (some (mapped, next))
  holds state := source.holds state ++ f.holds

end Source

end EffectLayers
