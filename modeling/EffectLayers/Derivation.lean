import EffectLayers.Catalog
import EffectLayers.Dispatch

/-!
# Deriving complete tables

A seed with `pure` becomes a definition: every operation that it does not give is derived
from those that it does. Operations without a possible source fault when used.

## Main definitions

* `Seed.bind`, `Seed.map` and the like: the operation given, or the one derived.
* `Seed.table`: the complete table.
* `Seed.definition?`, `Seed.assemble`: the definition of a seed.
-/

namespace EffectLayers

/-- The fault of an operation without a source. -/
def Prog.missing (op : Operation) (definition : String) : Prog Value :=
  throw (.notImplemented op definition)

namespace Seed

variable (s : Seed) (lift : Value → Prog Value)

/-! ## Sequencing -/

/-- From `join` and `map`, else by the method of the value. -/
def bind : Value → Callback → Prog Value :=
  match s.ops .bind, s.ops .join, s.ops .map with
  | some bind, _, _ => bind
  | none, some join, some map => fun a f => do join (← map a f)
  | none, _, _ => Value.bindByMethod

def map : Value → Callback → Prog Value :=
  (s.ops .map).getD fun a f => s.bind a (f.map fun code v => do lift (← code v))

def join : Value → Prog Value :=
  (s.ops .join).getD fun m => s.bind m { code := Pure.pure }

/-! ## Products -/

/-- From `arr`, else by sequencing. -/
def pair : Value → Value → Prog Value :=
  match s.ops .pair, s.ops .arr with
  | some pair, _ => pair
  | none, some arr => fun a b => arr [a, b]
  | none, none => fun a b =>
    let second (x : Value) : Callback := ⟨fun y => Pure.pure (.list [x, y]), { values := [x] }⟩
    let first : Callback := ⟨fun x => s.map lift b (second x), { values := [b] }⟩
    Prog.keeping [b] (s.bind a first)

/-- The list of a pair's first part in front of the list that is its second. -/
def consParts (v : Value) : Prog Value := do
  let parts ← v.asList
  match parts with
  | head :: tail :: _ => return .list (head :: (← tail.asList))
  | _ => throw (.expected .pair (.list parts))

/-- Collect effect values in pairs of a first and the list of the others. -/
def collect : List Value → Prog Value
  | [] => lift (.list [])
  | [x] => s.map lift x { code := fun v => Pure.pure (.list [v]) }
  | [a, b] => s.pair lift a b
  | head :: rest => do
    let tail ← collect rest
    s.map lift (← s.pair lift head tail) { code := consParts }

/-- By collecting, during which all items are held. -/
def arr : List Value → Prog Value :=
  (s.ops .arr).getD fun items => Prog.keeping items (s.collect lift items)

/-! ## Loops -/

/-- Bind a body's result to the body again, for at most so many rounds. -/
def iterateFrom (bind : Value → Callback → Prog Value) (body : Callback) : Nat → Value → Prog Value
  | 0, _ => .halt .exhausted
  | n + 1, v => do bind (← body.call v) ⟨iterateFrom bind body n, body.holds⟩

def iterate : Callback → Value → Prog Value :=
  (s.ops .iterate).getD fun body v =>
    Prog.holding body.holds (.bounded fun n => iterateFrom s.bind body n v)

/-- While the test holds: the body, then the step, for at most so many rounds. What a round
starts with is held until its step. -/
def forParFrom (bind : Value → Callback → Prog Value) (lift : Value → Prog Value)
    (test : Test) (body step : Callback) : Nat → Value → Prog Value
  | 0, _ => .halt .exhausted
  | n + 1, v => do
    let loop := test.holds ++ body.holds ++ step.holds
    if ← Prog.holding loop (Prog.keeping [v] (test.call v)) then
      let result ← Prog.holding loop (Prog.keeping [v] (body.call v))
      bind result
        { code := fun w => Prog.keeping [w] do
            forParFrom bind lift test body step n (← step.call v)
          holds := { values := [v] } ++ loop }
    else Prog.holding loop (lift v)

def forPar : Test → Callback → Callback → Value → Prog Value :=
  (s.ops .forPar).getD fun test body step v =>
    .bounded fun n => forParFrom s.bind lift test body step n v

/-- Bind each yield of a generator to its resumption, for at most so many rounds. A generator
and what it was resumed with are held until the next one is done. -/
def seqFrom (bind : Value → Callback → Prog Value) (lift : Value → Prog Value) (source : Source) :
    Nat → source.State → Value → Prog Value
  | 0, _, _ => .halt .exhausted
  | n + 1, state, input => Prog.holding (source.holds state) do
    match ← Prog.keeping [input] (source.resume state input) with
    | none => lift input
    | some (produced, next) =>
      Prog.keeping [input] (bind produced ⟨seqFrom bind lift source n next, source.holds next⟩)

def seq : Source → Prog Value :=
  (s.ops .seq).getD fun source => Prog.holding source.start.holds (.bounded fun n => do
    seqFrom s.bind lift source n (← source.start.run) .unit)

/-! ## Runs -/

def reify : Action → Prog Value := (s.ops .reify).getD Closure.run

def run : Action → Prog Value := (s.ops .run).getD s.reify

/-! ## Control -/

def raise : Value → Prog Value := (s.ops .raise).getD fun _ => .missing .raise s.title

def handle : Value → Callback → Prog Value :=
  (s.ops .handle).getD fun _ _ => .missing .handle s.title

def block : Body → Prog Value :=
  (s.ops .block).getD fun _ => .missing .block s.title

/-- The given `block`, if there is no `scope`. -/
def scope : Body → Prog Value :=
  match s.ops .scope, s.ops .block with
  | some scope, _ => scope
  | none, some block => block
  | none, none => fun _ => .missing .scope s.title

def const : Value → Value → Prog Value :=
  (s.ops .const).getD fun a v => s.map lift a ⟨fun _ => Pure.pure v, { values := [v] }⟩

/-- The cleanup runs in the handler of an exception, which is raised again, and after any
other result. -/
def cleanup : Value → Action → Prog Value :=
  (s.ops .cleanup).getD fun a f => do
    let again (e : Value) : Callback :=
      ⟨fun w => Prog.keeping [w] (s.raise e), { values := [e] }⟩
    let handled ← Prog.holding f.holds <| s.handle a <| f.map fun code e => do
      s.bind (← Prog.keeping [e] code) (again e)
    s.bind handled <| f.map fun code v => do s.const lift (← Prog.keeping [v] code) v

/-! ## Alternatives -/

/-- From the given `alt`. -/
def plus : Value → Value → Prog Value :=
  match s.ops .plus, s.ops .alt with
  | some plus, _ => plus
  | none, some alt => fun a b => alt [a, b]
  | none, none => fun _ _ => .missing .plus s.title

/-- From the given `alt`. -/
def empty : Prog Value :=
  match s.ops .empty, s.ops .alt with
  | some empty, _ => empty
  | none, some alt => alt []
  | none, none => .missing .empty s.title

/-- The sum of a value and those of a list, from the left. -/
def sum (acc : Value) : List Value → Prog Value
  | [] => Pure.pure acc
  | v :: rest => do sum (← Prog.keeping rest (s.plus acc v)) rest

def alt : List Value → Prog Value :=
  (s.ops .alt).getD fun
    | [] => s.empty
    | first :: rest => s.sum first rest

def opt : Value → Prog Value :=
  (s.ops .opt).getD fun a => do s.plus a (← Prog.keeping [a] (lift .unit))

/-! ## The table -/

def unshiftTo : Value → Value → Prog Value :=
  (s.ops .unshiftTo).getD fun a items =>
    let prepend : Callback :=
      ⟨fun v => do return .list (v :: (← items.asList)), { values := [items] }⟩
    s.map lift a prepend

/-- The complete table, given the `pure` of the seed. -/
def table : Table
  | .pure => lift
  | .raise => s.raise
  | .coerce => (s.ops .coerce).getD Pure.pure
  | .bind => s.bind
  | .map => s.map lift
  | .join => s.join
  | .pair => s.pair lift
  | .arr => s.arr lift
  | .handle => s.handle
  | .cleanup => s.cleanup lift
  | .const => s.const lift
  | .unshiftTo => s.unshiftTo lift
  | .alt => s.alt
  | .plus => s.plus
  | .empty => s.empty
  | .opt => s.opt lift
  | .block => s.block
  | .scope => s.scope
  | .iterate => s.iterate
  | .forPar => s.forPar lift
  | .seq => s.seq lift
  | .run => s.run
  | .reify => s.reify
  | .reflect => (s.ops .reflect).getD Pure.pure
  | .pack => (s.ops .pack).getD Pure.pure
  | .unpack => (s.ops .unpack).getD Pure.pure

/-- The definition of a seed, for an identity; only a missing `pure` is refused. -/
def definition? (s : Seed) (id : DefId) : Option Definition :=
  (s.ops .pure).map fun lift =>
    { id, name := s.title, base := s.base, context := s.context, brand := s.brand
      supplied := s.supplies, table := s.table lift }

/-- Assemble the definition of a seed that may refer to its own identity. -/
def assembleWith (s : DefId → Seed) : Assembly Definition := fun c =>
  match (s c.nextId).definition? c.nextId with
  | none => (.error (.missingPure (s c.nextId).title), c)
  | some d => (.ok d, c.add d)

/-- Assemble the definition of a seed, whatever was to be put back on top. -/
def assemble (s : Seed) : Assembly Definition := assembleWith fun _ => s

end Seed

end EffectLayers
