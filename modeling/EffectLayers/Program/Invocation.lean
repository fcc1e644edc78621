import EffectLayers.Program.Generator

/-!
# Operations on values alone

An operation can be called with values in place of its callbacks, and a body on values alone
can stand in for an operation: its callbacks are handed to it as function values.

## Main definitions

* `Value.test`, `Value.action`, `Value.body`: the closures that a function value stands for.
* `Table.apply`, `Table.answer`: an operation, and anything asked of a definition, on values.
* `Operation.ofBody`: the operation that hands a list of values to a body.
-/

namespace EffectLayers

/-- The test of a loop that a function value stands for. -/
def Value.test (f : Value) : Test :=
  f.callback.map fun code v => do (← code v).asBool

/-- The action that a function value stands for: it is called with `()`. -/
def Value.action (f : Value) : Action := f.callback.map fun code => code .unit

/-- The body of a block that a function value stands for. -/
def Value.body (f : Value) : Body :=
  f.callback.map fun code escape => do code (← escape.reify)

/-- Use an operation on values; function values stand for callbacks. A value that is no
function faults when it is called. -/
def Table.apply (t : Table) : Operation → List Value → Prog Value
  | .pure, [v] => t .pure v
  | .raise, [v] => t .raise v
  | .coerce, [v] => t .coerce v
  | .join, [v] => t .join v
  | .opt, [v] => t .opt v
  | .reflect, [v] => t .reflect v
  | .pack, [v] => t .pack v
  | .unpack, [v] => t .unpack v
  | .pair, [a, b] => t .pair a b
  | .const, [a, b] => t .const a b
  | .unshiftTo, [a, b] => t .unshiftTo a b
  | .plus, [a, b] => t .plus a b
  | .bind, [a, f] => t .bind a f.callback
  | .map, [a, f] => t .map a f.callback
  | .handle, [a, f] => t .handle a f.callback
  | .arr, [items] => do t .arr (← items.asList)
  | .alt, [items] => do t .alt (← items.asList)
  | .empty, [] => t .empty
  | .cleanup, [a, f] => t .cleanup a f.action
  | .block, [body] => t .block body.body
  | .scope, [body] => t .scope body.body
  | .iterate, [body, v] => t .iterate body.callback v
  | .forPar, [test, body, step, v] => t .forPar test.test body.callback step.callback v
  | .seq, [source] => t .seq (Source.ofValue source)
  | .run, [f] => t .run f.action
  | .reify, [f] => t .reify f.action
  | _, _ => .halt .meaningless

/-- Do what is asked for with a list of values. -/
def Table.answer (t : Table) : Request → List Value → Prog Value
  | .operation op, args => t.apply op args
  | .runSeq, [source] =>
    let source := Source.ofValue source
    t .run ⟨t .seq source, source.start.holds⟩
  | .runSeq, _ => .halt .meaningless

/-- The test as a function value; what it is given is held meanwhile. -/
def Closure.reifyTest (f : Test) : Prog Value :=
  (f.map fun code v => do return Value.bool (← Prog.keeping [v] (code v))).reify

/-- The body of a block as a function value, which is given the escape as one. -/
def Closure.reifyBody (f : Body) : Prog Value :=
  (f.map fun code (escape : Value) => code escape.callback).reify

/-- The operation that hands its arguments to a body, for which they are held; callbacks become
function values. -/
def Operation.ofBody (program : List Value → Prog Value) (op : Operation) : Signature op :=
  let body (args : List Value) : Prog Value := Prog.keeping args (program args)
  match op with
  | .pure | .raise | .coerce | .join | .opt | .reflect | .pack | .unpack => fun v => body [v]
  | .pair | .const | .unshiftTo | .plus => fun a b => body [a, b]
  | .bind | .map | .handle => fun a f => do body [a, ← f.reify]
  | .arr | .alt => fun items => body [.list items]
  | .empty => body []
  | .cleanup => fun a f => do body [a, ← f.ignoring.reify]
  | .block | .scope => fun inner => do body [← inner.reifyBody]
  | .iterate => fun f v => do body [← f.reify, v]
  | .forPar => fun test inner step v => do
    body [← test.reifyTest, ← inner.reify, ← step.reify, v]
  | .seq => fun source => do body [← source.reify]
  | .run | .reify => fun f => do body [← f.ignoring.reify]

end EffectLayers
