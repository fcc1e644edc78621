import EffectLayers.Expr.Basic
import EffectLayers.Program.Generator

/-!
# Evaluating expressions

An expression is a program in an environment. Arguments are evaluated from left to right, and
each is checked before the next one is evaluated, during which it is held. The arguments of a
request are held until it is answered; what a function value is called with is its own to
hold.

## Main definitions

* `Env`: the values of variables.
* `Unary.apply`, `Binary.apply`: the operators.
* `Expr.eval`: the program of an expression.
-/

namespace EffectLayers

/-- A text so many times over, by doubling: the empty text costs next to nothing however often
it is repeated. -/
def Text.repeated (s : String) (n : Nat) : String :=
  if n = 0 then ""
  else
    let half := repeated s (n / 2)
    if n % 2 = 0 then half ++ half else half ++ half ++ s

/-- The values of variables, innermost first. -/
abbrev Env := List (String × Value)

namespace Value

/-- The value itself, if it has the shape. -/
def checked (shape : Shape) (v : Value) : Prog Value := do
  match shape, v with
  | .integer, int _ | .truth, bool _ | .string, str _ | .list, list _ => pure v
  | .cursor, cursor .. | .cursor, unit => pure v
  | shape, found => throw (.expected shape found)

/-- The keys of the pairs in a list, each key once, where it occurs first. -/
def distinctKeys (entries : List Value) : Prog (List Value) := do
  let keys ← entries.filterMapM fun entry => do
    if entry.isUnit then return none
    match ← entry.asList with
    | [key, _] => return some (← key.asString)
    | _ => throw (.expected .pair entry)
  return keys.eraseDups.map str

/-- What a source answers for an item: an item named `End` stands for "no item now". -/
def asSupply (v : Value) : Supply := if (v.arg? "End").isSome then .pause v else .item v

/-- The text of a value in a joined text: a string is its own. -/
def joinText (adopted : BrandId → Bool) : Value → String
  | str s => s
  | v => v.display adopted

/-- A text so many times over, the empty one for a negative number. -/
def replicate (s : String) (n : Int64) : String := Text.repeated s n.toNatClampNeg

end Value

namespace Prog

/-- The definition of a name. -/
def definitionNamed (name : String) : Prog DefId := do
  ofOption (← query (.definition name))

/-- The name of a definition and the operations it was given. -/
def describe (d : DefId) : Prog (String × List Operation) := do
  ofOption (← query (.describe d))

/-- The name of the definition, or `()`. -/
def nameOf : Option DefId → Prog Value
  | some d => do return .str (← describe d).1
  | none => pure .unit

end Prog

namespace Unary

open Value in
/-- The result of an operator. -/
def apply (v : Value) : Unary → Prog Value
  | exception => pure (.signal v .exception)
  | escape => do return .signal v (.scope (← Prog.query .freshScope))
  | carry name => do return .carrier (← Prog.ofOption (← Prog.query (.brand name))) v
  | only => do return .only (← Prog.query .freshIdentity) v
  | as shape => v.checked shape
  | isUnit => pure (.bool v.isUnit)
  | isSignal => pure (.bool v.isSignal)
  | isException => pure (.bool v.isException)
  | payload => match v with
    | .signal v _ => pure v
    | _ => pure .unit
  | inner => v.asCarried
  | not => do return .bool (!(← v.asBool))
  | display => do return .str (v.display (← Prog.query .adopted))
  | structural => do return .str (v.structural (← Prog.query .adopted))
  | length => do return .int (Int64.ofNat (← v.asList).length)
  | vec => do cursorOfList (← v.asList)
  | keys => do cursorOfList (← distinctKeys (← v.asList))
  | buffer => do cursorOfSource (.ofAnswers ((← v.asList).map asSupply))
  | element => do return (← v.asCursor).element
  | pull => do (← v.asCursor).pull
  | effects => do
    let cursor ← v.asCursor
    (Source.ofCursor cursor).generator cursor
  | log => do
    Prog.query (.log v)
    return .unit
  | record => do
    Prog.query (.log v)
    Ambient.invoke .pure [.unit]
  | throw => MonadExcept.throw (Fault.thrown v)
  | settle => v.settle

end Unary

namespace Binary

/-- The check of the first value, before the second is evaluated. -/
def check (v : Value) : Binary → Prog Unit
  | add | sub | mul | less | range => do discard v.asInt
  | nth | append => do discard v.asList
  | replicate => do discard v.asString
  | equal | call | unfold | mapYields | andThen => pure ()

/-- The integers from `a` up to but not including `b`. -/
def integers (a b : Int64) : List Value :=
  (List.range (b.toInt - a.toInt).toNat).map fun n => .int (a + Int64.ofNat n)

/-- The result of an operator. -/
def apply (a b : Value) : Binary → Prog Value
  | add => do return .int ((← a.asInt) + (← b.asInt))
  | sub => do return .int ((← a.asInt) - (← b.asInt))
  | mul => do return .int ((← a.asInt) * (← b.asInt))
  | less => do return .bool ((← a.asInt) < (← b.asInt))
  | equal => pure (.bool (a == b))
  | call => a.call b
  | nth => do
    let items ← a.asList
    let i ← b.asInt
    return if i < 0 then .unit else items[i.toNatClampNeg]?.getD .unit
  | append => do
    let front ← a.asList
    return .list (front ++ (← b.asList))
  | range => do return .list (integers (← a.asInt) (← b.asInt))
  | replicate => do
    let s ← a.asString
    return .str (Value.replicate s (← b.asInt))
  | unfold => do
    let source := Source.unfold a b
    source.generator a
  | mapYields => do
    let source := (Source.ofValue a).mapYields b.callback
    source.generator a
  | andThen => do
    let next : Action := b.callback.map fun code => code .unit
    Ambient.invoke .bind [a, ← next.ignoring.reify]

end Binary

namespace Expr

/-- The definition that a request goes to, once its arguments are evaluated. -/
def target : Option String → Prog DefId
  | some name => Prog.definitionNamed name
  | none => Ambient.definition

/-- A request to a definition, for which its arguments are held. The list of alternatives or
items is checked before the definition is looked for. -/
def perform (d : Option String) (r : Request) (args : List Value) : Prog Value :=
  Prog.keeping args do
    match r, args with
    | .operation .arr, [items] | .operation .alt, [items] => discard items.asList
    | _, _ => pure ()
    DefId.request (← target d) r args

/-- Combine a value and the items of a list, from the left. What is yet to come is held. -/
def foldItems (f : Value) (acc : Value) : List Value → Prog Value
  | [] => pure acc
  | v :: vs => do
    foldItems f (← Prog.keeping vs (f.call (.list [acc, v]))) vs

mutual

/-- The program of an expression. -/
def eval (env : Env) : Expr → Prog Value
  | lit v => pure v
  | var x => Prog.ofOption (env.lookup x)
  | bind x e body => do
    let v ← e.eval env
    Prog.keeping [v] (body.eval ((x, v) :: env))
  | steps es => do return (← evalAll env es).getLast?.getD .unit
  | cond test yes no => do
    if ← (← test.eval env).asBool then yes.eval env else no.eval env
  | fn x body =>
    let f : Callback :=
      { code := fun v => Prog.keeping [v] (body.eval ((x, v) :: env))
        holds := { values := env.map (·.2) } }
    f.reify
  | case e name x yes no => do
    let v ← e.eval env
    Prog.keeping [v] do
      match v.arg? name with
      | some arg => yes.eval ((x, arg) :: env)
      | none => no.eval env
  | list es => do return .list (← evalAll env es)
  | ctor name e => do return .ctor name (← e.eval env)
  | mute label => do return .mute (← Prog.query .freshIdentity) label
  | unary op e => do op.apply (← e.eval env)
  | binary op a b => do
    let a ← a.eval env
    op.check a
    op.apply a (← Prog.keeping [a] (b.eval env))
  | text es => do
    let vs ← evalAll env es
    let adopted ← Prog.query .adopted
    return .str (String.join (vs.map (·.joinText adopted)))
  | fold l init f => do
    let items ← (← l.eval env).asList
    let start ← Prog.keeping items (init.eval env)
    let f ← Prog.keeping items (Prog.keeping [start] (f.eval env))
    Prog.keeping [f] (foldItems f start items)
  | outcome e => do
    match ← (e.eval env).outcome with
    | .ok v => return .ctor "Ok" v
    | .error fault =>
      return .ctor "Err" (.list [.str fault.kind, fault.payload (← Prog.query .adopted)])
  | attempt e => Ambient.attempt (e.eval env)
  | request d r args => do perform d r (← evalAll env args)
  | method m self args => do
    let self ← self.eval env
    let args ← Prog.keeping [self] (evalAll env args)
    Prog.keeping (self :: args) (self.method m args)
  | current => do Prog.nameOf (← Prog.query .current)
  | install none => do Prog.nameOf (← Prog.query (.install none))
  | install (some name) => do
    let d ← Prog.definitionNamed name
    Prog.nameOf (← Prog.query (.install (some d)))
  | within name e => do
    let d ← Prog.definitionNamed name
    Prog.inside (.installed d) (e.eval env)
  | execute name f => do
    let thunk ← f.eval env
    DefId.execute (← Prog.definitionNamed name) thunk
  | lift name f => do
    let f ← f.eval env
    (DefId.lifted (← Prog.definitionNamed name) f).reify
  | drop name => do
    if ← Prog.query (.forget name) then return .unit else .halt .meaningless
  | showDefinition name => do
    let (title, supplied) ← Prog.describe (← Prog.definitionNamed name)
    return .str (Definition.structural title supplied)
  | same d e => do
    return .bool ((← Prog.definitionNamed d) == (← Prog.definitionNamed e))

/-- The values of expressions, one after another. -/
def evalAll (env : Env) : List Expr → Prog (List Value)
  | [] => pure []
  | e :: es => do
    let v ← e.eval env
    return v :: (← Prog.keeping [v] (evalAll env es))

end

end Expr

end EffectLayers
