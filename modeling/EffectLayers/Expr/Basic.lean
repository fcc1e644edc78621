import EffectLayers.Dispatch

/-!
# Expressions

The language that scenarios are written in.

## Main definitions

* `Unary`, `Binary`: operators on evaluated values.
* `Expr`: expressions.
-/

namespace EffectLayers

/-- An operator on one value. -/
inductive Unary where
  /-- A raised exception with this payload. -/
  | exception
  /-- A signal to a scope that is nowhere else. -/
  | escape
  /-- A carrier of the brand of a name. -/
  | carry (brand : String)
  | only
  /-- The value itself, if it has the shape. -/
  | as (shape : Shape)
  | isUnit
  | isSignal
  | isException
  | payload
  | inner
  | not
  | display
  | structural
  | length
  /-- A cursor on the items of a list. -/
  | vec
  /-- A cursor on the distinct keys of a list of pairs. -/
  | keys
  /-- A cursor on items that are taken one by one, and logged when they are. -/
  | buffer
  | element
  | pull
  /-- The generator of the elements from a cursor on. -/
  | effects
  | log
  /-- Log, as an effect of the installed definition. -/
  | record
  | throw
  | settle
  deriving DecidableEq

/-- An operator on two values. -/
inductive Binary where
  | add
  | sub
  | mul
  | less
  | equal
  | call
  | nth
  | append
  | range
  /-- A text so many times over. -/
  | replicate
  /-- The generator that threads a state through a function. -/
  | unfold
  | mapYields
  /-- An effect and what comes after it, by the installed definition. -/
  | andThen
  deriving DecidableEq

/-- Expressions. Definitions are meant by their names. -/
inductive Expr where
  /-- A constant. -/
  | lit (v : Value)
  | var (x : String)
  | bind (x : String) (e body : Expr)
  /-- Every expression in turn, for the value of the last. -/
  | steps (es : List Expr)
  | cond (test yes no : Expr)
  | fn (x : String) (body : Expr)
  /-- By the constructor of a value, with its argument bound. -/
  | case (e : Expr) (name x : String) (yes no : Expr)
  | list (es : List Expr)
  | ctor (name : String) (e : Expr)
  | mute (label : String)
  | unary (op : Unary) (e : Expr)
  | binary (op : Binary) (a b : Expr)
  /-- The texts of values, joined. -/
  | text (es : List Expr)
  | fold (l init f : Expr)
  /-- How an expression ends, with a fault or without, as a value. -/
  | outcome (e : Expr)
  | attempt (e : Expr)
  /-- An operation of a definition or, without a name, of the installed one. -/
  | request (d : Option String) (r : Request) (args : List Expr)
  | method (m : Method) (self : Expr) (args : List Expr)
  /-- The name of the installed definition. -/
  | current
  /-- Install a definition, or none, for the name of the former one. -/
  | install (d : Option String)
  /-- With a definition installed. -/
  | within (d : String) (e : Expr)
  | execute (d : String) (f : Expr)
  | lift (d : String) (f : Expr)
  | drop (d : String)
  | showDefinition (d : String)
  | same (d e : String)

end EffectLayers
