import EffectLayers.Operation
import EffectLayers.Value.Display

/-!
# Faults

A fault ends an operation or a callback from outside the effect, unlike a signal, which
travels inside effect values.

## Main definitions

* `Shape`: what a value was expected to be.
* `Fault`: the causes.
* `Fault.message`, `Fault.payload`: the text of a fault, and the value that a handler sees
  when the fault is raised into an effect.
-/

namespace EffectLayers

/-- What a value was expected to be. -/
inductive Shape where
  | integer
  | truth
  | string
  | list
  | pair
  | cursor
  | function
  | box
  | carrier
  /-- A carried effect value, of the brand at hand or of any. -/
  | carried
  /-- A value that brings its own bind along. -/
  | bindable
  deriving DecidableEq, Inhabited

def Shape.text : Shape → String
  | integer => "an integer"
  | truth => "a boolean"
  | string => "a string"
  | list => "a list"
  | pair => "a pair"
  | cursor => "a cursor"
  | function => "a function"
  | box => "a box"
  | carrier => "a carrier"
  | carried => "a carried effect value"
  | bindable => "a value with `mbind`"

/-- Why an operation or a callback failed. -/
inductive Fault where
  /-- The definition has no source for the operation. -/
  | notImplemented (op : Operation) (definition : String)
  | expected (shape : Shape) (found : Value)
  /-- An object, given by its text, without a bind of its own. -/
  | missingBind (object : String)
  /-- A carrier of another brand. -/
  | foreignCarrier (wanted found : Brand)
  /-- No definition is installed. -/
  | noAmbient
  /-- The definition that a callback or a brand belongs to is gone. -/
  | detached (name : String)
  /-- An exception that nothing handled. -/
  | thrown (payload : Value)
  /-- An escape whose scope had ended. -/
  | escaped (payload : Value) (tag : Tag)
  deriving Inhabited

namespace Fault

/-- The name of the kind of fault. -/
def kind : Fault → String
  | notImplemented .. => "NotImplemented"
  | expected .. => "Expected"
  | missingBind _ => "MissingMethod"
  | foreignCarrier .. => "ForeignCarrier"
  | noAmbient => "NoAmbient"
  | detached _ => "Detached"
  | thrown _ => "Thrown"
  | escaped .. => "Escaped"

/-- The text of a fault. -/
def message (adopted : BrandId → Bool) : Fault → String
  | notImplemented op definition =>
    "`" ++ op.name ++ "` is not implemented by `" ++ definition ++ "`"
  | expected shape found =>
    "expected " ++ shape.text ++ ", found `" ++ found.display adopted ++ "`"
  | missingBind object => "`" ++ object ++ "` has no method `mbind`"
  | foreignCarrier wanted found =>
    "`" ++ wanted.text ++ "` cannot unpack a carrier of `" ++ found.text ++ "`"
  | noAmbient => "no effect definition is installed in the ambient context"
  | detached name => "effect definition `" ++ name ++ "` is no longer alive"
  | thrown payload => "uncaught exception: " ++ payload.display adopted
  | escaped payload tag =>
    "escape to a scope that is no longer active: " ++
      (Value.signal payload tag).display adopted

/-- The value that a handler sees: the payload of a thrown fault, else the text. -/
def payload (adopted : BrandId → Bool) : Fault → Value
  | thrown payload => payload
  | fault => .str (fault.message adopted)

end Fault

end EffectLayers
