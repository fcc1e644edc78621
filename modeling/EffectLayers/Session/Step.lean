import EffectLayers.Catalog
import EffectLayers.Expr.Basic
import EffectLayers.Options

/-!
# Steps of a session

What a step asks for and what it answers.

## Main definitions

* `SeedExpr`, `Layer`, `Recipe`, `Step`: descriptions of seeds, layers, definitions and steps.
* `Report`, `Failure`, `Answer`, `Reply`: what a step answers.
-/

namespace EffectLayers

/-- A description of a seed. -/
inductive SeedExpr where
  | identity
  | either
  | results
  | boxed
  | looping
  | unnamed
  | named (name : String)
  /-- Extend the definition of a name. -/
  | extend (definition layer : String)
  /-- A seed with one more operation, given by an expression in its parameters. -/
  | override (seed : SeedExpr) (op : Operation) (params : List String) (body : Expr)

/-- One layer on a definition. -/
inductive Layer where
  | escape
  | coercion
  /-- The brand is given by its name. -/
  | carrier (brand : String)
  | context (mode : ContextMode)

/-- How a definition is made. -/
inductive Recipe where
  | options (s : SeedExpr) (o : Options)
  /-- With the options that a document describes. -/
  | toml (s : SeedExpr) (text : String)
  | layers (s : SeedExpr) (layers : List Layer)
  /-- Layers on the definition of a name. -/
  | on (definition : String) (layers : List Layer)

/-- A step of a session. -/
inductive Step where
  | define (name : String) (r : Recipe)
  | showSeed (s : SeedExpr)
  | freshBrand (name title : String)
  /-- Name the brand of a definition. -/
  | brandOf (name definition : String)
  | adopt (brand definition : String)
  | drop (definition : String)
  | readOptions (text : String)
  /-- Evaluate, and bind the value to a variable. -/
  | eval (e : Expr) (x : Option String)
  /-- Run on every definition of the grid. -/
  | grid (e : Expr)

/-- What a step that succeeded has to say. -/
inductive Report where
  | value (v : Value)
  | text (s : String)
  | definition (name : String) (supplied : List Operation) (bases : List String)
      (brand : Option Brand)
  | options (o : Options)

/-- Why a step failed. -/
inductive Failure where
  | fault (f : Fault)
  | config (e : ConfigError)

/-- The answer to one evaluation or assembly. -/
structure Answer where
  result : Except Failure Report
  log : List Value
  /-- The name of the definition that is installed afterwards. -/
  ambient : Option String

/-- The answer to a step. -/
inductive Reply where
  | one (a : Answer)
  /-- The answers on the definitions of the grid, by name. -/
  | grid (answers : List (String × Answer))

namespace Failure

def kind : Failure → String
  | fault f => f.kind
  | config e => e.kind

def message? (adopted : BrandId → Bool) : Failure → Option String
  | fault f => some (f.message adopted)
  | config e => e.message?

end Failure

end EffectLayers
