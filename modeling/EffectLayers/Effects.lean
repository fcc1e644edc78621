import EffectLayers.Build

/-!
# Ready-made effects

## Main definitions

* `Effects.identity`, `Effects.either`, `Effects.results`, `Effects.boxed`: seeds.
* `Effects.looping`: `identity` with escapes and loops that iterate.
* `Effects.grid`: three of them under every combination of layers.
-/

namespace EffectLayers.Effects

/-- Plain values are effect values; every operation runs at once. -/
def identity : Seed :=
  { Seed.named "identity" with
    ops := fun
      | .pure => some fun v => pure v
      | .coerce => some fun v => pure v
      | .bind => some fun a f => f.call a
      | .run => some Closure.run
      | _ => none }

/-- While the test holds: the body, then the step, for at most so many rounds. A signal of the
body ends the loop. -/
def forParFrom (test : Test) (body step : Callback) : Nat → Value → Prog Value
  | 0, _ => .halt .exhausted
  | n + 1, v => do
    if ← Prog.keeping [v] (test.call v) then
      let result ← Prog.keeping [v] (body.call v)
      if result.isSignal then pure result
      else forParFrom test body step n (← Prog.keeping [result] (step.call v))
    else pure v

/-- Feed each result of the body back into it, for at most so many rounds, until it is a
signal. -/
def iterateFrom (body : Callback) : Nat → Value → Prog Value
  | 0, _ => .halt .exhausted
  | n + 1, v => do
    let result ← body.call v
    if result.isSignal then pure result else iterateFrom body n result

/-- `identity` with escape control and loops that iterate instead of nesting; a loop stops at
the first signal that its body produces. -/
def looping : Assembly Seed := do
  let escaped ← (← identity.complete).withEscapeControl
  Assembly.readingHomes fun home =>
    let seed := (escaped.extend home "loops").set .forPar fun test body step v =>
      Prog.holding (test.holds ++ body.holds ++ step.holds)
        (.bounded fun n => forParFrom test body step n v)
    pure (seed.set .iterate fun body v => .bounded fun n => iterateFrom body n v)

def isOutcome (v : Value) : Bool := (v.arg? "Ok").isSome || (v.arg? "Err").isSome

/-- Continue with the argument of a constructor, which is held meanwhile; anything else is left
as it is. -/
def onArgument (name : String) (a : Value) (f : Callback) : Prog Value :=
  match a.arg? name with
  | some v => Prog.keeping [a] (f.call v)
  | none => pure a

/-- `Ok(v)` or `Err(e)`; exceptions are native. -/
def either : Seed :=
  { Seed.named "either" with
    ops := fun
      | .pure => some fun v => pure (.ctor "Ok" v)
      | .coerce => some fun v => pure (if isOutcome v then v else .ctor "Ok" v)
      | .raise => some fun e => pure (.ctor "Err" e)
      | .bind => some (onArgument "Ok")
      | .handle => some (onArgument "Err")
      | _ => none }

/-- The results of a callback on the items of a list, after those that were found before, in
reverse. What was found and what is yet to come are held. -/
def bindEach (f : Callback) (found : List Value) : List Value → Prog (List Value)
  | [] => pure found
  | v :: vs => do
    let results ← (← Prog.keeping found (Prog.keeping vs (f.call v))).asList
    bindEach f (results.reverse ++ found) vs

/-- Lists of every possible result. -/
def results : Seed :=
  { Seed.named "list" with
    ops := fun
      | .pure => some fun v => pure (.list [v])
      | .coerce => some fun v => pure (if v.isList then v else .list [v])
      | .bind => some fun a f => do
        let found ← bindEach f [] (← a.asList)
        pure (.list found.reverse)
      | .plus => some fun a b => do
        let front ← a.asList
        pure (.list (front ++ (← b.asList)))
      | .empty => some (pure (.list []))
      | _ => none }

def unbox (a : Value) : Prog Value :=
  match a.arg? "Box" with
  | some v => pure v
  | none => throw (.expected .box a)

/-- `Box(v)`, given by `join` and `map` only. -/
def boxed : Seed :=
  { Seed.named "box" with
    ops := fun
      | .pure => some fun v => pure (.ctor "Box" v)
      | .join => some unbox
      | .map => some fun a f => do return .ctor "Box" (← f.call (← unbox a))
      | _ => none }

/-! ## The grid -/

/-- The options of the grid, for seeds that need escape control or have it. -/
def gridOptions (escape : Bool) : List Options :=
  [none, some "wrapped"].flatMap fun carrier =>
    [false, true].flatMap fun coercion =>
      ContextMode.all.map fun context => ⟨escape, carrier, coercion, context, .home⟩

/-- Build a seed with each of the options in turn. -/
def buildAll (s : Seed) : List Options → Assembly (List Definition)
  | [] => pure []
  | o :: os => do
    let d ← s.build o
    return d :: (← buildAll s os)

/-- Three effects under every combination of layers. -/
def grid : Assembly (List Definition) := do
  let loops ← looping
  let a ← buildAll identity (gridOptions true)
  let b ← buildAll either (gridOptions true)
  let c ← buildAll loops (gridOptions false)
  return a ++ b ++ c

end EffectLayers.Effects
