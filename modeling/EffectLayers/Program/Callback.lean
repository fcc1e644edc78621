import EffectLayers.Program.Basic

/-!
# Callbacks and function values

A closure is code together with the values and the definitions that it refers to: they are in
use while it runs and for as long as something refers to it. Any callback can be made a
function value, and any value can be used as a callback, which faults when called if the value
is no function.

## Main definitions

* `Closure`: code and what it refers to.
* `Closure.run`, `Closure.call`: running it, which holds what it refers to.
* `Callback`, `Action`, `Body`, `Test`: the closures that operations take.
* `Value.call`, `Value.callback`, `Closure.reify`: from values to callbacks and back.
* `Value.asInt`, `Value.asList` and the like: views of a value that fault on other shapes.
-/

namespace EffectLayers

universe u v

/-- Code, and what it refers to. -/
structure Closure (α : Type u) where
  code : α
  holds : Holding := { }

/-- A callback of one value. -/
abbrev Callback := Closure (Value → Prog Value)

/-- A program to be run later. -/
abbrev Action := Closure (Prog Value)

/-- The body of a `block`, which is given the escape. -/
abbrev Body := Closure (Callback → Prog Value)

/-- The test of a loop. -/
abbrev Test := Closure (Value → Prog Bool)

namespace Closure

/-- The closure with its code changed by a function that refers to nothing more. -/
def map {α : Type u} {β : Type v} (g : α → β) (f : Closure α) : Closure β := ⟨g f.code, f.holds⟩

@[simp] theorem code_map {α : Type u} {β : Type v} (g : α → β) (f : Closure α) :
    (f.map g).code = g f.code := rfl

@[simp] theorem holds_map {α : Type u} {β : Type v} (g : α → β) (f : Closure α) :
    (f.map g).holds = f.holds := rfl

/-- Run the program; what it refers to is held meanwhile. -/
def run {β : Type} (f : Closure (Prog β)) : Prog β := Prog.holding f.holds f.code

/-- Run the code on an argument; what it refers to is held meanwhile. -/
def call {α : Type u} {β : Type} (f : Closure (α → Prog β)) (a : α) : Prog β :=
  (f.map fun code => code a).run

/-- A function value that does what the callback does. -/
def reify (f : Callback) : Prog Value := .function f.holds f.code fun id => pure (.func id)

/-- The callback that runs the program whatever it is given, which is held meanwhile. -/
def ignoring (f : Action) : Callback := f.map fun p v => Prog.keeping [v] p

end Closure

namespace Value

/-- Call a function value. -/
def call (f arg : Value) : Prog Value :=
  match f with
  | func id => .call id arg .done
  | found => throw (.expected .function found)

/-- The callback that calls a function value. -/
def callback (f : Value) : Callback := ⟨f.call, { values := [f] }⟩

def asInt : Value → Prog Int64
  | int i => pure i
  | found => throw (.expected .integer found)

def asBool : Value → Prog Bool
  | bool b => pure b
  | found => throw (.expected .truth found)

def asString : Value → Prog String
  | str s => pure s
  | found => throw (.expected .string found)

def asList : Value → Prog (List Value)
  | list items => pure items
  | found => throw (.expected .list found)

/-- The inner value of a carrier. -/
def asCarried : Value → Prog Value
  | carrier _ inner => pure inner
  | found => throw (.expected .carrier found)

end Value

end EffectLayers
