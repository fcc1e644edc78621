import EffectLayers.Program.Callback

/-!
# Finding the definition to use

Operations reach their definition in two ways besides naming it. Ambient operations use
whichever definition is installed. A carried value uses the definition that adopted its brand
or, while none has, whichever is installed.

## Main definitions

* `Ambient.invoke`, `Ambient.attempt`: operations of the installed definition.
* `Method`, `Value.method`: operations of carried values.
* `Value.bindByMethod`: the bind that a value brings along.
* `DefId.execute`, `DefId.lifted`: running with a definition installed.
* `Value.settle`: a signal at the top level as a fault.
-/

namespace EffectLayers

/-- Ask something of a definition. -/
def DefId.request (d : DefId) (r : Request) (args : List Value) : Prog Value :=
  .invoke d r args .done

/-- Use an operation of a definition. -/
def DefId.invoke (d : DefId) (op : Operation) (args : List Value) : Prog Value :=
  DefId.request d (.operation op) args

namespace Ambient

/-- The installed definition. -/
def definition : Prog DefId := do
  match ← Prog.query .current with
  | some d => pure d
  | none => throw .noAmbient

/-- Use an operation of the installed definition. -/
def invoke (op : Operation) (args : List Value) : Prog Value := do
  DefId.invoke (← definition) op args

/-- Run a program now: a fault in it becomes a raised exception, and any other outcome is
coerced into an effect value. The definition that does so is the one installed before. -/
def attempt (p : Prog Value) : Prog Value := do
  let d ← definition
  Prog.inside (.holding { definitions := [d] }) do
    match ← p.outcome with
    | .ok v => DefId.invoke d .coerce [v]
    | .error fault => DefId.invoke d .raise [fault.payload (← Prog.query .adopted)]

end Ambient

/-- Run `thunk` by the `run` of a definition, which is installed meanwhile. -/
def DefId.execute (d : DefId) (thunk : Value) : Prog Value :=
  Prog.inside (.installed d) (DefId.invoke d .run [thunk])

/-- The callback that runs `f` with a definition installed whenever it is called. It refers to
the definition. -/
def DefId.lifted (d : DefId) (f : Value) : Callback where
  code v := Prog.inside (.installed d) (f.call v)
  holds := { values := [f], definitions := [d] }

/-- An operation in the style of a method of a carried value. -/
inductive Method where
  /-- The name of the definition that the methods of the value use. -/
  | context
  | bind
  | apply
  | join
  | pair
  | handle
  | cleanup
  | const
  | unshiftTo
  | plus
  /-- `alt` of the value and the items of a list. -/
  | alt
  | opt
  | unpack
  deriving DecidableEq, Inhabited

namespace Method

def all : List Method :=
  [context, bind, apply, join, pair, handle, cleanup, const, unshiftTo, plus, alt, opt, unpack]

def name : Method → String
  | context => "mcontext"
  | bind => "mbind"
  | apply => "mapply"
  | join => "mjoin"
  | pair => "mpair"
  | handle => "mhandle"
  | cleanup => "mfinally"
  | const => "mconst"
  | unshiftTo => "munshiftTo"
  | plus => "mplus"
  | alt => "malt"
  | opt => "mopt"
  | unpack => "munpack"

def ofName? (s : String) : Option Method := all.find? (·.name == s)

/-- The operation that a method uses. -/
def operation? : Method → Option Operation
  | context => none
  | bind => some .bind
  | apply => some .map
  | join => some .join
  | pair => some .pair
  | handle => some .handle
  | cleanup => some .cleanup
  | const => some .const
  | unshiftTo => some .unshiftTo
  | plus => some .plus
  | alt => some .alt
  | opt => some .opt
  | unpack => some .unpack

end Method

namespace Value

/-- The definition that the methods of a carried value use. -/
def dispatch : Value → Prog DefId
  | carrier brand _ => do
    match ← Prog.query (.home brand.id) with
    | some d =>
      if ← Prog.query (.alive d) then pure d else throw (.detached brand.name)
    | none => Ambient.definition
  | found => throw (.expected .carried found)

/-- Use a method of a value. -/
def method (m : Method) (self : Value) (args : List Value) : Prog Value := do
  match m, args with
  | .alt, [others] => do
    let others ← others.asList
    DefId.invoke (← self.dispatch) .alt [list (self :: others)]
  | .context, [] => do
    let (name, _) ← Prog.ofOption (← Prog.query (.describe (← self.dispatch)))
    pure (str name)
  | m, args => do
    let op ← Prog.ofOption m.operation?
    DefId.invoke (← self.dispatch) op (self :: args)

/-- The bind that a value brings along, which is held meanwhile: an object has its own, a
carried value uses that of its definition. -/
def bindByMethod (a : Value) (f : Callback) : Prog Value :=
  match a with
  | object id text method => do
    let f ← f.reify
    Prog.keeping [object id text method] ((func method).call (list [object id text method, f]))
  | only id content => Prog.keeping [only id content] (f.call content)
  | mute id label => do throw (.missingBind ((mute id label).objectText (← Prog.query .adopted)))
  | carrier brand inner => do
    let f ← f.reify
    Prog.keeping [carrier brand inner] ((carrier brand inner).method .bind [f])
  | found => throw (.expected .bindable found)

/-- A signal that is left at the top level as a fault. -/
def settle : Value → Prog Value
  | signal payload .exception => throw (.thrown payload)
  | signal payload tag => throw (.escaped payload tag)
  | v => pure v

end Value

end EffectLayers
