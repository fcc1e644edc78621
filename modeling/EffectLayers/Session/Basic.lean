import EffectLayers.Effects
import EffectLayers.Expr.Eval
import EffectLayers.Program.Run
import EffectLayers.Session.Step

/-!
# Sessions

A session makes, names and drops definitions and brands and evaluates expressions, one step
after another.

## Main definitions

* `Session`: the catalog, the world and the values of variables.
* `Session.seed?`, `Session.recipe?`: how seeds and definitions are made.
* `Session.evaluate`: running a program.
* `Session.step`, `Session.run`: one step, and all of them.
-/

namespace EffectLayers

/-- The state of a session. -/
structure Session : Type 1 where
  catalog : Catalog
  world : World
  env : Env

namespace Session

/-- A session before its first step. -/
def empty : Session := ⟨.empty, .empty, []⟩

/-- The bound on nested calls and on the rounds of a loop. -/
def budget : Nat := 1000000000000

variable (s : Session)

/-- Whether a brand was adopted by a definition. -/
def adopted (b : BrandId) : Bool := (s.catalog.home b).isSome

/-- The definition of a name. -/
def definition? (name : String) : Option Definition :=
  (s.world.names.lookup name).bind s.catalog.get?

/-- The name of the installed definition. -/
def ambientName : Option String := (s.world.ambient.bind s.catalog.get?).map (·.name)

/-! ## Making definitions -/

/-- The operation that an expression in some parameters stands for. -/
def operationOf (env : Env) (op : Operation) (params : List String) (body : Expr) :
    Signature op :=
  op.ofBody fun args =>
    if args.length = params.length then body.eval ((params.zip args).reverse ++ env)
    else .halt .meaningless

/-- The steps that make a seed. -/
def seed? : SeedExpr → Option (Assembly Seed)
  | .identity => some (pure Effects.identity)
  | .either => some (pure Effects.either)
  | .results => some (pure Effects.results)
  | .boxed => some (pure Effects.boxed)
  | .looping => some Effects.looping
  | .unnamed => some (pure Seed.unnamed)
  | .named name => some (pure (Seed.named name))
  | .extend name layer => (s.definition? name).map fun d =>
    Assembly.readingHomes fun home => pure (d.extend home layer)
  | .override seed op params body => (seed? seed).map fun assembly => do
    return (← assembly).set op (operationOf s.env op params body)

/-- The steps that put a layer on a definition. -/
def layer? : Layer → Option (Definition → Assembly Definition)
  | .escape => some (·.withEscapeControl)
  | .coercion => some (·.withCoercion)
  | .carrier name => (s.world.brands.lookup name).map fun brand d => d.withCarrier brand
  | .context mode => some (·.withContext mode)

/-- The steps that put layers on a definition, in order. -/
def layers? : List Layer → Option (Definition → Assembly Definition)
  | [] => some pure
  | l :: ls => (s.layer? l).bind fun first => (layers? ls).map fun others d => do
    others (← first d)

/-- The steps of a recipe. -/
def recipe? : Recipe → Option (Assembly Definition)
  | .options seed o => (s.seed? seed).map fun assembly => do (← assembly).build o
  | .toml seed text => (s.seed? seed).map fun assembly => do
    let seed ← assembly
    match Options.ofToml? Toml.read? text with
    | some o => seed.build o
    | none => Assembly.refuse .options
  | .layers seed ls => (s.seed? seed).bind fun assembly =>
    (s.layers? ls).map fun layers => do layers (← (← assembly).complete)
  | .on name ls => (s.definition? name).bind fun d => (s.layers? ls).map fun layers => layers d

/-! ## Answering -/

/-- What there is to say of a definition. -/
def reportOf (d : Definition) : Report :=
  .definition d.name (Operation.which d.supplies) ((d.lineage.drop 1).map (·.2)) d.carrierBrand?

/-- The reply of a step without a log of its own, and the session after it. -/
def reply (result : Except Failure Report) : Reply × Session :=
  (.one ⟨result, [], s.ambientName⟩, s)

/-- The reply of a step that assembles something. -/
def assembling {α : Type 1} (assembly : Assembly α) (report : Session → α → Reply × Session) :
    Reply × Session :=
  match assembly s.catalog with
  | (.ok a, catalog) => report { s with catalog } a
  | (.error e, catalog) => { s with catalog }.reply (.error (.config e))

/-- Run a program, which the values of the variables are held for, and answer its result and
its log. -/
def evaluate (p : Prog Value) : Option (Except Fault Value × Answer × Session) :=
  let p := Prog.keeping (s.env.map (·.2)) p
  match p.run s.catalog budget { s.world with log := #[] } with
  | .halted _ => none
  | .finished result w =>
    let s := { s with world := w }
    let shown := match result with
      | .ok v => .ok (.value v)
      | .error f => .error (.fault f)
    some (result, ⟨shown, w.log.toList, s.ambientName⟩, s)

/-- Run an expression on definitions, one after another. -/
def onEach (e : Expr) : List Definition → Session → Option (List (String × Answer) × Session)
  | [], s => some ([], s)
  | d :: ds, s =>
    let thunk : Callback := { code := fun _ => e.eval s.env }
    let program := do DefId.execute d.id (← thunk.reify)
    (s.evaluate program).bind fun (_, a, after) =>
      (onEach e ds after).map fun (others, s) => ((d.name, a) :: others, s)

/-- One step; nothing if it means nothing. -/
def step : Step → Option (Reply × Session)
  | .define name r => (s.recipe? r).map fun assembly =>
    s.assembling assembly fun s d =>
      { s with world := s.world.rename name d.id }.reply (.ok (reportOf d))
  | .showSeed seed => (s.seed? seed).map fun assembly =>
    s.assembling assembly fun s seed => s.reply (.ok (.text seed.structural))
  | .freshBrand name title =>
    let brand : Brand := ⟨s.catalog.nextBrand, title⟩
    let catalog := { s.catalog with nextBrand := s.catalog.nextBrand + 1 }
    let world := { s.world with brands := (name, brand) :: s.world.brands }
    some ({ s with catalog, world }.reply (.ok (.text brand.text)))
  | .brandOf name definition =>
    ((s.definition? definition).bind (·.carrierBrand?)).map fun brand =>
      let world := { s.world with brands := (name, brand) :: s.world.brands }
      { s with world }.reply (.ok (.text brand.text))
  | .adopt name definition =>
    (s.world.brands.lookup name).bind fun brand =>
      (s.definition? definition).map fun d =>
        { s with catalog := s.catalog.adopt brand d.id }.reply (.ok (.value .unit))
  | .drop name =>
    match s.world.forget name with
    | (true, world) => some ({ s with world }.reply (.ok (.value .unit)))
    | (false, _) => none
  | .readOptions text =>
    match Options.ofToml? Toml.read? text with
    | some o => some (s.reply (.ok (.options o)))
    | none => some (s.reply (.error (.config .options)))
  | .eval e x => (s.evaluate (e.eval s.env)).map fun (result, a, after) =>
    match result, x with
    | .ok v, some x => (.one a, { after with env := (x, v) :: after.env })
    | _, _ => (.one a, after)
  | .grid e =>
    match Effects.grid s.catalog with
    | (.ok ds, catalog) =>
      (onEach e ds { s with catalog }).map fun (answers, s) => (.grid answers, s)
    | (.error e, catalog) => some ({ s with catalog }.reply (.error (.config e)))

/-- All steps, each with the session after it; nothing if one of them means nothing. -/
def run : List Step → Session → Option (List (Reply × Session))
  | [], _ => some []
  | t :: ts, s => (s.step t).bind fun (reply, s) => (run ts s).map ((reply, s) :: ·)

end Session

end EffectLayers
