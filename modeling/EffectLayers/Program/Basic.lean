import EffectLayers.Fault
import EffectLayers.Program.Sequence

/-!
# Programs

A program is a tree of requests to the world it runs in, each with what to do next for every
answer. Programs that differ only in how their sequencing is grouped are the same tree, so
the laws of sequencing are equations.

## Main definitions

* `Query`: the first-order requests, and the type of their answers.
* `Holding`, `Scope`: what is held, and what lasts as long as a part of a program.
* `Prog`: programs that end in a result or a fault.
* `Prog.outcome`: a program with its fault turned into a result.

## Main statements

* `Prog` is a lawful monad.
-/

namespace EffectLayers

/-- A request to the world with an immediate answer. -/
inductive Query where
  /-- The installed definition. -/
  | current
  /-- Install a definition, or none; answers the former one. -/
  | install (d : Option DefId)
  /-- Whether something still holds the definition. -/
  | alive (d : DefId)
  /-- The definition that adopted the brand. -/
  | home (brand : BrandId)
  /-- Which brands were adopted. -/
  | adopted
  | freshScope
  | freshIdentity
  | log (v : Value)
  /-- A new pull sequence: the items at hand, then what its source hands out. -/
  | sequence (items : List Value) (source : Option Iterator)
  /-- The item at a position of a sequence. -/
  | item (s : SequenceId) (position : Nat)
  /-- The definition of a name. -/
  | definition (name : String)
  /-- Forget a name. -/
  | forget (name : String)
  /-- The brand of a name. -/
  | brand (name : String)
  /-- Name and supplied operations of a definition. -/
  | describe (d : DefId)

/-- The answer to a request. -/
abbrev Query.Answer : Query → Type
  | current => Option DefId
  | install _ => Option DefId
  | alive _ => Bool
  | home _ => Option DefId
  | adopted => BrandId → Bool
  | freshScope => ScopeId
  | freshIdentity => Identity
  | log _ => Unit
  | sequence .. => SequenceId
  | item .. => Option Value
  | definition _ => Option DefId
  | forget _ => Bool
  | brand _ => Option Brand
  | describe _ => Option (String × List Operation)

/-- What is held by a function value, or by a part of a program while it runs. -/
structure Holding where
  values : List Value := []
  definitions : List DefId := []
  deriving Inhabited

namespace Holding

instance : Append Holding :=
  ⟨fun g h => ⟨g.values ++ h.values, g.definitions ++ h.definitions⟩⟩

@[simp] theorem values_append (g h : Holding) : (g ++ h).values = g.values ++ h.values := rfl

@[simp] theorem definitions_append (g h : Holding) :
    (g ++ h).definitions = g.definitions ++ h.definitions := rfl

end Holding

/-- A state of the world that lasts as long as one part of a program. -/
inductive Scope where
  /-- Values and definitions are in use. -/
  | holding (h : Holding)
  /-- The definition is in use and installed; the former one is back afterwards. -/
  | installed (d : DefId)

/-- Why a program has no outcome. -/
inductive Halt where
  /-- It needs more steps than it was given. -/
  | exhausted
  /-- It means nothing: a name or an operation that does not exist, a wrong number of
  arguments. -/
  | meaningless
  deriving DecidableEq

/-- A program with results of a type. -/
inductive Prog : Type → Type 1 where
  | done {α : Type} (result : Except Fault α) : Prog α
  | halt {α : Type} (reason : Halt) : Prog α
  /-- Go on with a bound on the rounds of a loop. -/
  | bounded {α : Type} (next : Nat → Prog α) : Prog α
  | ask {α : Type} (q : Query) (next : q.Answer → Prog α) : Prog α
  /-- Make a function value of `code`, which holds what `code` refers to. -/
  | function {α : Type} (holds : Holding) (code : Value → Prog Value) (next : FuncId → Prog α) :
      Prog α
  /-- Call a function value. -/
  | call {α : Type} (f : FuncId) (arg : Value) (next : Except Fault Value → Prog α) : Prog α
  /-- Ask something of a definition, which is held meanwhile. -/
  | invoke {α : Type} (d : DefId) (r : Request) (args : List Value)
      (next : Except Fault Value → Prog α) : Prog α
  /-- Run a part of the program in a scope. -/
  | within {α β : Type} (s : Scope) (body : Prog β) (next : Except Fault β → Prog α) : Prog α

namespace Prog

variable {α β γ : Type}

/-- Go on with the result; a fault ends the program. -/
def bind : Prog α → (α → Prog β) → Prog β
  | done (.ok a), f => f a
  | done (.error e), _ => done (.error e)
  | halt h, _ => halt h
  | bounded next, f => bounded fun n => (next n).bind f
  | ask q next, f => ask q fun a => (next a).bind f
  | function h code next, f => function h code fun id => (next id).bind f
  | call g arg next, f => call g arg fun r => (next r).bind f
  | invoke d r args next, f => invoke d r args fun r => (next r).bind f
  | within s body next, f => within s body fun r => (next r).bind f

/-- The program with a fault at its end turned into a result. -/
def outcome : Prog α → Prog (Except Fault α)
  | done r => done (.ok r)
  | halt h => halt h
  | bounded next => bounded fun n => (next n).outcome
  | ask q next => ask q fun a => (next a).outcome
  | function h code next => function h code fun id => (next id).outcome
  | call g arg next => call g arg fun r => (next r).outcome
  | invoke d r args next => invoke d r args fun r => (next r).outcome
  | within s body next => within s body fun r => (next r).outcome

instance : Monad Prog where
  pure a := done (.ok a)
  bind := bind

instance : MonadExceptOf Fault Prog where
  throw e := done (.error e)
  tryCatch p h := p.outcome.bind fun
    | .ok a => done (.ok a)
    | .error e => h e

theorem pure_def (a : α) : (pure a : Prog α) = done (.ok a) := rfl

theorem bind_def (p : Prog α) (f : α → Prog β) : p >>= f = p.bind f := rfl

theorem bind_done_ok (p : Prog α) : p.bind (fun a => done (.ok a)) = p := by
  induction p with
  | done r => cases r <;> rfl
  | halt => rfl
  | bounded _ ih => simp only [bind, ih]
  | ask _ _ ih => simp only [bind, ih]
  | function _ _ _ _ ih => simp only [bind, ih]
  | call _ _ _ ih => simp only [bind, ih]
  | invoke _ _ _ _ ih => simp only [bind, ih]
  | within _ _ _ _ ih => simp only [bind, ih]

theorem bind_bind (p : Prog α) (f : α → Prog β) (g : β → Prog γ) :
    (p.bind f).bind g = p.bind fun a => (f a).bind g := by
  induction p with
  | done r => cases r <;> rfl
  | halt => rfl
  | bounded _ ih => simp only [bind, ih]
  | ask _ _ ih => simp only [bind, ih]
  | function _ _ _ _ ih => simp only [bind, ih]
  | call _ _ _ ih => simp only [bind, ih]
  | invoke _ _ _ _ ih => simp only [bind, ih]
  | within _ _ _ _ ih => simp only [bind, ih]

instance : LawfulMonad Prog :=
  LawfulMonad.mk' Prog bind_done_ok (fun _ _ => rfl) bind_bind

/-- Ask the world. -/
def query (q : Query) : Prog q.Answer := ask q fun a => done (.ok a)

/-- Run a program in a scope. -/
def inside (s : Scope) (p : Prog α) : Prog α := within s p done

/-- Run a program while something is held. -/
def holding (h : Holding) (p : Prog α) : Prog α := inside (.holding h) p

/-- Run a program while values are held. -/
def keeping (vs : List Value) (p : Prog α) : Prog α := holding { values := vs } p

/-- A result that may be missing: the program means nothing without it. -/
def ofOption : Option α → Prog α
  | some a => pure a
  | none => halt .meaningless

end Prog

end EffectLayers
