import EffectLayers.Derivation
import EffectLayers.Program.Generator

/-!
# The coercion layer

Whatever a callback answers is coerced into an effect value.

## Main definitions

* `Coercion.seed`: the seed of the layer.
* `Definition.withCoercion`: the layer.
-/

namespace EffectLayers

namespace Coercion

/-- A callback with its result coerced. -/
def coerced (coerce : Value → Prog Value) (f : Callback) : Callback :=
  f.map fun code v => do coerce (← code v)

/-- A block body with its result coerced. -/
def coercedBody (coerce : Value → Prog Value) (body : Body) : Body :=
  body.map fun code escape => do coerce (← code escape)

/-- An action with its result coerced. -/
def coercedAction (coerce : Value → Prog Value) (f : Action) : Action :=
  f.map fun p => do coerce (← p)

/-- The seed of the layer: results of the callbacks that answer effect values are coerced. -/
def seed (inner : Definition) : Seed :=
  let coerce := inner.table .coerce
  let base := Seed.keeping inner "coerce"
  { base with
    ops := fun
      | .map => some (inner.table .map)
      | .bind => some fun a f => inner.table .bind a (coerced coerce f)
      | .handle => some fun a f => inner.table .handle a (coerced coerce f)
      | .cleanup => some fun a f => inner.table .cleanup a (coercedAction coerce f)
      | .iterate => some fun body v => inner.table .iterate (coerced coerce body) v
      | .forPar => some fun test body step v =>
        inner.table .forPar test (coerced coerce body) step v
      | .block => some fun body => inner.table .block (coercedBody coerce body)
      | .scope => some fun body => inner.table .scope (coercedBody coerce body)
      | .run => some fun f => inner.table .run (coercedAction coerce f)
      | .seq => some fun source => inner.table .seq (source.mapYields { code := coerce })
      | op => base.ops op }

end Coercion

/-- Coercion of callback results on top of a definition, which must have been given a
`coerce`. -/
def Definition.withCoercion (inner : Definition) : Assembly Definition :=
  if inner.supplies .coerce then (Coercion.seed inner).assemble
  else .refuse (.missingCoerce inner.name)

end EffectLayers
