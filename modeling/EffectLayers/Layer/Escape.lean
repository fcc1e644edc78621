import EffectLayers.Derivation

/-!
# The escape layer

Exceptions and delimited escapes. A definition that was given a `handle` of its own gets
`block` on top of its `raise` and `handle`. Any other definition threads signals through its
results instead: continuations are skipped while a signal is the current value.

## Main definitions

* `Escape.native`, `Escape.threaded`: the seeds of the two ways.
* `Definition.withEscapeControl`: the layer.
-/

namespace EffectLayers

namespace Escape

/-- `block` on top of an exception that `send` makes and a handler that `catching` attaches:
a signal of this invocation ends it with `finish`, any other one is sent on. -/
def blockWith (send : Value → Prog Value) (catching : Value → Callback → Prog Value)
    (finish : Value → Prog Value) (body : Body) : Prog Value :=
  Prog.holding body.holds do
    let tag := Tag.scope (← Prog.query .freshScope)
    let result ← body.call { code := fun v => send (.signal v tag) }
    catching result
      { code := fun v =>
          match v.caught? tag with
          | some payload => Prog.keeping [v] (finish payload)
          | none => send v }

/-- `block` by the exceptions of the definition itself. -/
def nativeBlock (inner : Definition) : Body → Prog Value :=
  blockWith (inner.table .raise) (inner.table .handle) (inner.table .pure)

/-- Escapes as exceptions of the definition itself; its handlers see no signals. -/
def native (inner : Definition) : Seed :=
  let seed := Seed.keeping inner "escape"
  { seed with
    ops := fun
      | .bind => some (inner.table .bind)
      | .map => some (inner.table .map)
      | .raise => some (inner.table .raise)
      | .iterate => some (inner.table .iterate)
      | .forPar => some (inner.table .forPar)
      | .cleanup => some (inner.table .cleanup)
      | .handle => some fun a f => inner.table .handle a <| f.map fun code v =>
        if v.isSignal then inner.table .raise v else code v
      | .block => some (nativeBlock inner)
      | .scope => some (nativeBlock inner)
      | op => seed.ops op }

/-- `block` by signals in the results. -/
def threadedBlock (inner : Definition) : Body → Prog Value :=
  blockWith (inner.table .pure) (inner.table .bind) (inner.table .pure)

/-- A cleanup that keeps the outcome before it, unless its own is a signal. -/
def afterCleanup (inner : Definition) (f : Action) : Callback :=
  f.map fun code v => do
    let result ← Prog.keeping [v] code
    inner.table .map result
      ⟨fun w => pure (if w.isSignal then w else v), { values := [v] }⟩

/-- Escapes and exceptions as signals in the results. -/
def threaded (inner : Definition) : Seed :=
  let seed := Seed.keeping inner "escape"
  { seed with
    ops := fun
      | .map => some fun a f => inner.table .map a <| f.map fun code v =>
        if v.isSignal then pure v else code v
      | .bind => some fun a f => inner.table .bind a <| f.map fun code v =>
        if v.isSignal then inner.table .pure v else code v
      | .raise => some fun e => inner.table .pure (.signal e .exception)
      | .handle => some fun a f => inner.table .bind a <| f.map fun code v =>
        match v.caught? .exception with
        | some payload => Prog.keeping [v] (code payload)
        | none => inner.table .pure v
      | .cleanup => some fun a f => inner.table .bind a (afterCleanup inner f)
      | .block => some (threadedBlock inner)
      | .scope => some (threadedBlock inner)
      | op => seed.ops op }

/-- The seed of the layer. -/
def seed (inner : Definition) : Seed :=
  if inner.supplies .handle then native inner else threaded inner

theorem seed_of_handles {inner : Definition} (h : inner.supplies .handle = true) :
    seed inner = native inner := if_pos h

theorem seed_of_not_handles {inner : Definition} (h : inner.supplies .handle = false) :
    seed inner = threaded inner := if_neg (Bool.eq_false_iff.mp h)

end Escape

/-- Exceptions and delimited escapes on top of a definition. -/
def Definition.withEscapeControl (inner : Definition) : Assembly Definition :=
  (Escape.seed inner).assemble

end EffectLayers
