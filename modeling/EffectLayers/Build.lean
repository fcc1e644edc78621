import EffectLayers.Layer.Carrier
import EffectLayers.Layer.Coercion
import EffectLayers.Layer.Context
import EffectLayers.Layer.Escape
import EffectLayers.Options

/-!
# Building definitions from options

## Main definitions

* `Seed.build`: complete a seed and stack the layers that the options ask for.
-/

namespace EffectLayers

namespace Definition

/-- The layers from the carrier on. The brand is adopted by the result if methods are to be
looked for there. -/
def withLayers (d : Definition) (o : Options) (brand : Option Brand) : Assembly Definition := do
  let d ← match brand with
    | some brand => d.withCarrier brand
    | none => pure d
  let d ← if o.coercion then d.withCoercion else pure d
  let d ← d.withContext o.context
  match brand, o.dispatch with
  | some brand, .home => Assembly.adopting brand d
  | _, _ => pure d

end Definition

/-- Complete a seed, then add escape control, the carrier, coercion and the context, in this
order, each only if the options ask for it. -/
def Seed.build (s : Seed) (o : Options) : Assembly Definition := do
  let d ← s.complete
  let d ← if o.escape then d.withEscapeControl else pure d
  match o.carrier with
  | some name => Assembly.withBrand name fun brand => d.withLayers o (some brand)
  | none => d.withLayers o none

end EffectLayers
