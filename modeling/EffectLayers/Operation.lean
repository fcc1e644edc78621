/-!
# Operations

The operations of an effect definition.

## Main definitions

* `Operation`, `Operation.all`: the operations, in the order in which they are listed.
* `Request`: what is asked of a definition.
* `Operation.name`, `Operation.ofName?`: the names that callers dispatch on.
-/

namespace EffectLayers

/-- An operation of an effect definition. -/
inductive Operation where
  /-- Lift a plain value. -/
  | pure
  /-- An effect value that represents an exception. -/
  | raise
  /-- Promote any value to an effect value. -/
  | coerce
  | bind
  | map
  | join
  | pair
  /-- Collect a list of effect values. -/
  | arr
  /-- Recover from an exception. -/
  | handle
  /-- Run a cleanup whatever the outcome. -/
  | cleanup
  /-- Replace the result. -/
  | const
  /-- Put the result in front of a list. -/
  | unshiftTo
  | alt
  | plus
  | empty
  | opt
  /-- Run a body that may escape. -/
  | block
  | scope
  /-- Feed each result of a body back into it. -/
  | iterate
  /-- A loop with a test, a body and a step. -/
  | forPar
  /-- Run the effect values that a generator yields. -/
  | seq
  | run
  | reify
  | reflect
  | pack
  | unpack
  deriving DecidableEq, Inhabited

namespace Operation

def all : List Operation :=
  [pure, raise, coerce, bind, map, join, pair, arr, handle, cleanup, const, unshiftTo, alt, plus,
    empty, opt, block, scope, iterate, forPar, seq, run, reify, reflect, pack, unpack]

/-- The name that callers dispatch on. -/
def name : Operation → String
  | pure => "pure"
  | raise => "raise"
  | coerce => "coerce"
  | bind => "bind"
  | map => "map"
  | join => "join"
  | pair => "pair"
  | arr => "arr"
  | handle => "handle"
  | cleanup => "finally"
  | const => "const"
  | unshiftTo => "unshiftTo"
  | alt => "alt"
  | plus => "plus"
  | empty => "empty"
  | opt => "opt"
  | block => "block"
  | scope => "scope"
  | iterate => "repeat"
  | forPar => "forPar"
  | seq => "seq"
  | run => "run"
  | reify => "reify"
  | reflect => "reflect"
  | pack => "pack"
  | unpack => "unpack"

/-- The operation of a name. -/
def ofName? (s : String) : Option Operation := all.find? (·.name == s)

end Operation

/-- What is asked of a definition. -/
inductive Request where
  | operation (op : Operation)
  /-- `run` over `seq`. -/
  | runSeq
  deriving DecidableEq, Inhabited

end EffectLayers
