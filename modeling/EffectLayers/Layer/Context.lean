import EffectLayers.Derivation

/-!
# The context layer

The layer installs its definition around the callbacks that it invokes, so they see the
definition that called them whatever else ran in between.

## Main definitions

* `Installer`: the definition that a layer installs, by its identity.
* `Definition.withContext`: the layer.
* `Seed.complete`: the definition of a seed, with the context put back that `extend` took off.
-/

namespace EffectLayers

/-- The definition that a context layer installs. It does not hold it. -/
structure Installer where
  /-- The name used when the definition is gone. -/
  name : String
  target : DefId

namespace Installer

variable {α : Type} (a : Installer)

/-- Run a program with the definition installed. -/
def around (p : Prog α) : Prog α := do
  if ← Prog.query (.alive a.target) then Prog.inside (.installed a.target) p
  else throw (.detached a.name)

/-- A callback that runs with the definition installed. -/
def callback (f : Callback) : Callback := f.map fun code v => a.around (code v)

/-- A block body that runs with the definition installed. -/
def body (f : Body) : Body := f.map fun code escape => a.around (code escape)

/-- A source that starts, and every resumption runs, with the definition installed. -/
def source (inner : Source) : Source where
  State := inner.State
  start := inner.start.map a.around
  step state input := a.around (inner.step state input)
  holds := inner.holds

/-- The operations whose callbacks run with the definition installed in full mode. -/
def wrapped (inner : Definition) : (op : Operation) → Option (Signature op)
  | .bind => some fun x f => inner.table .bind x (a.callback f)
  | .handle => some fun x f => inner.table .handle x (a.callback f)
  | .cleanup => some fun x f => inner.table .cleanup x (f.map a.around)
  | .iterate => some fun body v => inner.table .iterate (a.callback body) v
  | .forPar => some fun test body step v => inner.table .forPar test (a.callback body) step v
  | .block => some fun body => inner.table .block (a.body body)
  | .scope => some fun body => inner.table .scope (a.body body)
  | .seq => some fun source => inner.table .seq (a.source source)
  | _ => none

/-- The operations that the layer takes from `inner` as they are, where it does not wrap
them. -/
def forwards : Operation → Bool
  | .map | .bind | .handle | .cleanup | .iterate | .forPar | .block | .scope => true
  | _ => false

/-- The operations that the layer gives in a mode. -/
def ops (inner : Definition) (mode : ContextMode) : (op : Operation) → Option (Signature op)
  | .run => some fun f => inner.table .run (f.map a.around)
  | op =>
    match mode, a.wrapped inner op with
    | .full, some f => some f
    | _, _ =>
      if forwards op then some (inner.table op) else (Seed.keeping inner "context").ops op

end Installer

namespace Definition

/-- The seed of a context layer whose definition has the identity `self`. -/
def contextSeed (inner : Definition) (mode : ContextMode) (self : DefId) : Seed :=
  { Seed.keeping inner "context" with
    context := some mode
    ops := Installer.ops ⟨inner.name ++ "+context", self⟩ inner mode }

/-- A context layer on top of a definition; none if the mode is off. -/
def withContext (inner : Definition) (mode : ContextMode) : Assembly Definition :=
  match mode with
  | .off => pure inner
  | mode => Seed.assembleWith (inner.contextSeed mode)

end Definition

/-- The definition of a seed. A context that `extend` took off is put back on top, and a brand
that the extended definition had adopted is adopted by the result. -/
def Seed.complete (s : Seed) : Assembly Definition := do
  let d ← s.assemble
  match s.reinstall with
  | none => pure d
  | some ⟨mode, brand⟩ =>
    let d ← d.withContext mode
    match brand with
    | none => pure d
    | some brand => Assembly.adopting brand d

end EffectLayers
