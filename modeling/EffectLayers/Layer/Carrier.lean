import EffectLayers.Derivation

/-!
# The carrier layer

Every effect value is wrapped in a carrier of one brand. Operations unpack their arguments
before they reach the wrapped definition and pack what it produces, so values of two
instantiations never mix unnoticed.

## Main definitions

* `Packing`: a brand, with the `coerce` that the definition beneath was given.
* `Packing.unpack`, `Packing.coerce`: leaving and entering the carrier.
* `Definition.withCarrier`: the layer.
-/

namespace EffectLayers

/-- How values enter and leave the carriers of a brand. -/
structure Packing : Type 1 where
  brand : Brand
  /-- The `coerce` that the wrapped definition was given. -/
  coercion : Option (Value → Prog Value)

namespace Packing

variable (w : Packing)

def pack (v : Value) : Value := .carrier w.brand v

/-- The inner value, if the value is a carrier of the brand. -/
def inner? : Value → Option Value
  | .carrier brand inner => if brand.same w.brand then some inner else none
  | _ => none

/-- A value as a carrier of the brand. -/
def coerce (promote : Value → Prog Value) (v : Value) : Prog Value :=
  match w.inner? v with
  | some _ => pure v
  | none => do return w.pack (← promote v)

/-- The inner value of a carrier of the brand; any other value is coerced, or refused if the
wrapped definition was given no `coerce`. -/
def unpack (v : Value) : Prog Value :=
  match w.inner? v, w.coercion, v with
  | some inner, _, _ => pure inner
  | none, some promote, v => promote v
  | none, none, .carrier brand _ => throw (.foreignCarrier w.brand brand)
  | none, none, found => throw (.expected .carried found)

@[simp] theorem inner?_pack (v : Value) : w.inner? (w.pack v) = some v := by
  simp [inner?, pack]

@[simp] theorem coerce_pack (promote : Value → Prog Value) (v : Value) :
    w.coerce promote (w.pack v) = pure (w.pack v) := by
  simp [coerce]

@[simp] theorem unpack_pack (v : Value) : w.unpack (w.pack v) = pure v := by
  simp [unpack]

/-- The inner values of two values, the second of which is held while the first is unpacked and
the first afterwards. -/
def unpackBoth (a b : Value) : Prog (Value × Value) := do
  let a ← Prog.keeping [b] (w.unpack a)
  return (a, ← Prog.keeping [a] (w.unpack b))

/-- The inner values of a list of values; what is unpacked and what is not yet are held. -/
def unpackAll : List Value → Prog (List Value)
  | [] => pure []
  | v :: vs => do
    let inner ← Prog.keeping vs (w.unpack v)
    return inner :: (← Prog.keeping [inner] (unpackAll vs))

/-- A program with its result packed. -/
def packed (p : Prog Value) : Prog Value := do return w.pack (← p)

/-- A program with its result unpacked. -/
def unpacked (p : Prog Value) : Prog Value := do w.unpack (← p)

@[simp] theorem unpacked_packed (p : Prog Value) : w.unpacked (w.packed p) = p := by
  simp only [unpacked, packed, bind_assoc, pure_bind, unpack_pack, bind_pure]

/-- A callback with its result unpacked. -/
def unpacking (f : Callback) : Callback := f.map fun code v => w.unpacked (code v)

/-- A block body for the wrapped definition; the escape handed to it packs its result. -/
def blockBody (body : Body) : Body :=
  body.map fun code escape =>
    w.unpacked (code (escape.map fun send v => w.packed (send v)))

/-- An operation on a value and a closure, which is held while the value is unpacked. -/
def bindWith {α : Type 1} (bind : Value → Closure α → Prog Value) (a : Value) (f : Closure α) :
    Prog Value := do
  w.packed (bind (← Prog.holding f.holds (w.unpack a)) f)

/-- The seed of the layer. -/
def seed (inner : Definition) : Seed :=
  { Seed.onTop inner "carrier" with
    brand := some w.brand
    ops := fun
      | .coerce => w.coercion.map w.coerce
      | .unpack => some w.unpack
      | .pack => some fun v => pure (w.pack v)
      | .pure => some fun v => w.packed (inner.table .pure v)
      | .map => some (w.bindWith (inner.table .map))
      | .bind => some (w.bindWith fun a f => inner.table .bind a (w.unpacking f))
      | .pair => some fun a b => do
        let (a, b) ← w.unpackBoth a b
        w.packed (inner.table .pair a b)
      | .arr => some fun items => do w.packed (inner.table .arr (← w.unpackAll items))
      | .raise => some fun e => w.packed (inner.table .raise e)
      | .handle => some (w.bindWith fun a f => inner.table .handle a (w.unpacking f))
      | .cleanup => some (w.bindWith fun a f => inner.table .cleanup a (f.map w.unpacked))
      | .block => some fun body => w.packed (inner.table .block (w.blockBody body))
      | .scope => some fun body => w.packed (inner.table .scope (w.blockBody body))
      | .iterate => some fun body v => w.packed (inner.table .iterate (w.unpacking body) v)
      | .forPar => some fun test body step v =>
        w.packed (inner.table .forPar test (w.unpacking body) step v)
      | .plus => some fun a b => do
        let (a, b) ← w.unpackBoth a b
        w.packed (inner.table .plus a b)
      | .empty => some (w.packed (inner.table .empty))
      | .alt => some fun items => do w.packed (inner.table .alt (← w.unpackAll items))
      | .run => some fun f => inner.table .run (f.map w.unpacked)
      | .reify => some fun f => w.unpacked (inner.table .reify f)
      | .reflect => some fun a => w.packed (inner.table .reflect a)
      | _ => none }

end Packing

namespace Definition

/-- How a layer with a brand on top of a definition packs values. -/
def packing (inner : Definition) (brand : Brand) : Packing :=
  ⟨brand, if inner.supplies .coerce then some (inner.table .coerce) else none⟩

/-- Carriers of a brand on top of a definition. -/
def withCarrier (inner : Definition) (brand : Brand) : Assembly Definition :=
  ((inner.packing brand).seed inner).assemble

end Definition

end EffectLayers
