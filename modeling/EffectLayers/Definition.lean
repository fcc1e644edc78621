import EffectLayers.Program.Callback

/-!
# Effect definitions

A seed is a partial table of operations; a definition is a complete one. Layers take a
definition, start a new seed over it, give the operations that they change and complete the
seed again.

## Main definitions

* `Source`: resumable producers of effect values.
* `Signature`: the type of each operation.
* `Seed`, `Definition`: partial and complete tables.
* `Seed.set`: a seed with one more operation given.
* `Seed.onTop`, `Seed.keeping`: the empty seed of a layer, and the one that keeps the
  representation of values.
* `Definition.extend`: the seed of everything that a definition was given itself.
-/

namespace EffectLayers

/-- A resumable producer of effect values. Resuming leaves a state untouched and answers what
is produced together with the state after it, or nothing once exhausted. -/
structure Source : Type 1 where
  State : Type
  /-- A fresh producer. -/
  start : Closure (Prog State)
  /-- Resume with the result of the previous step. -/
  step : State → Value → Prog (Option (Value × State))
  /-- What a state refers to. -/
  holds : State → Holding

/-- Resume a producer; what it refers to is held meanwhile. -/
def Source.resume (source : Source) (state : source.State) (input : Value) :
    Prog (Option (Value × source.State)) :=
  Prog.holding (source.holds state) (source.step state input)

/-- The type of an operation. -/
abbrev Signature : Operation → Type 1
  | .pure | .raise | .coerce | .join | .opt | .reflect | .pack | .unpack => Value → Prog Value
  | .pair | .const | .unshiftTo | .plus => Value → Value → Prog Value
  | .bind | .map | .handle => Value → Callback → Prog Value
  | .arr | .alt => List Value → Prog Value
  | .empty => Prog Value
  | .cleanup => Value → Action → Prog Value
  | .block | .scope => Body → Prog Value
  | .iterate => Callback → Value → Prog Value
  | .forPar => Test → Callback → Callback → Value → Prog Value
  | .seq => Source → Prog Value
  | .run | .reify => Action → Prog Value

/-- A complete table of operations. -/
abbrev Table := (op : Operation) → Signature op

/-- Which callbacks a context layer runs with its definition installed. -/
inductive ContextMode where
  | off
  /-- The thunk of `run`. -/
  | runOnly
  /-- Every callback but the test and the step of a loop. -/
  | full
  deriving DecidableEq, Inhabited

/-- A complete effect definition. -/
structure Definition : Type 1 where
  id : DefId
  name : String
  /-- The definition this one was layered on. -/
  base : Option Definition
  /-- The mode of a context layer. -/
  context : Option ContextMode
  /-- The brand of a carrier layer. -/
  brand : Option Brand
  /-- The operations given at this level rather than derived. -/
  supplied : Operation → Bool
  table : Table

/-- How a context layer is put back on top of an extended definition. -/
structure Reinstall where
  mode : ContextMode
  /-- A brand that the result adopts, as the extended definition had. -/
  brand : Option Brand

/-- A partial table of operations. -/
structure Seed : Type 1 where
  name : Option String
  base : Option Definition
  context : Option ContextMode
  brand : Option Brand
  reinstall : Option Reinstall
  ops : (op : Operation) → Option (Signature op)

/-- The operations for which a predicate holds, in the order in which they are listed. -/
def Operation.which (p : Operation → Bool) : List Operation := all.filter p

/-- Names of operations, quoted and in brackets. -/
def Operation.listed (ops : List Operation) : String :=
  bracketed (ops.map fun op => Text.quoted op.name)

namespace Definition

/-- Whether the operation was given at this level rather than derived. -/
def supplies (d : Definition) (op : Operation) : Bool := d.supplied op

/-- The brand of the nearest carrier layer at or beneath this definition. -/
def carrierBrand? : Definition → Option Brand
  | ⟨_, _, base, _, brand, _, _⟩ =>
    match brand, base with
    | some b, _ => some b
    | none, some d => d.carrierBrand?
    | none, none => none

/-- The definition, its base, the base of that, and so on. -/
def lineage : Definition → List (DefId × String)
  | ⟨id, name, base, _, _, _, _⟩ =>
    (id, name) :: match base with
      | some d => d.lineage
      | none => []

/-- The structural form of a definition. -/
def structural (name : String) (supplied : List Operation) : String :=
  record "Definition" ["name: " ++ Text.quoted name, "supplied: " ++ Operation.listed supplied]

end Definition

namespace Seed

/-- A seed without operations. -/
def unnamed : Seed := ⟨none, none, none, none, none, fun _ => none⟩

def named (name : String) : Seed := { unnamed with name := some name }

/-- The name that the definition of this seed has. -/
def title (s : Seed) : String := s.name.getD "anonymous"

/-- Whether the seed gives the operation. -/
def supplies (s : Seed) (op : Operation) : Bool := (s.ops op).isSome

/-- The seed with the operation given. -/
def set (s : Seed) (op : Operation) (f : Signature op) : Seed :=
  { s with ops := fun o => if h : o = op then some (h ▸ f) else s.ops o }

@[simp] theorem ops_set_self (s : Seed) (op : Operation) (f : Signature op) :
    (s.set op f).ops op = some f := by simp [set]

theorem ops_set_of_ne (s : Seed) {op o : Operation} (f : Signature op) (h : o ≠ op) :
    (s.set op f).ops o = s.ops o := by simp [set, h]

@[simp] theorem supplies_set_self (s : Seed) (op : Operation) (f : Signature op) :
    (s.set op f).supplies op = true := by simp [supplies]

/-- The structural form of a seed. -/
def structural (s : Seed) : String :=
  let name := match s.name with
    | some n => "Some(" ++ Text.quoted n ++ ")"
    | none => "None"
  record "Seed" ["name: " ++ name, "supplied: " ++ Operation.listed (Operation.which s.supplies)]

/-- An empty seed for a layer on top of `inner`. -/
def onTop (inner : Definition) (layer : String) : Seed :=
  { unnamed with name := some (inner.name ++ "+" ++ layer), base := some inner }

/-- The operations that a layer keeps if `inner` was given them: the constructors and the
alternatives of its values. -/
def keeps : Operation → Bool
  | .coerce | .raise | .arr | .alt | .plus | .empty | .opt | .pack | .unpack => true
  | _ => false

/-- A seed for a layer on top of `inner` that keeps its values: `pure`, and the constructors
and alternatives that `inner` was given itself. -/
def keeping (inner : Definition) (layer : String) : Seed :=
  { onTop inner layer with
    ops := fun
      | .pure => some (inner.table .pure)
      | op => if keeps op && inner.supplies op then some (inner.table op) else none }

end Seed

namespace Definition

/-- A seed of every operation that the definition was given itself, to be changed further and
completed again. A context layer stays on top: the seed extends the definition beneath it,
and completing it installs the context again. `home` tells which definition adopted a
brand. -/
def extend (home : BrandId → Option DefId) : Definition → String → Seed
  | ⟨id, name, some base, some mode, brand, supplied, table⟩, layer =>
    let self : Definition := ⟨id, name, some base, some mode, brand, supplied, table⟩
    let adopting := self.carrierBrand?.filter fun b => home b.id == some id
    { base.extend home layer with reinstall := some ⟨mode, adopting⟩ }
  | d, layer =>
    { Seed.onTop d layer with
      ops := fun op => if d.supplies op then some (d.table op) else none }

end Definition

end EffectLayers
