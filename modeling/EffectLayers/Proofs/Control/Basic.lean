import EffectLayers.Effects
import EffectLayers.Expr.Eval
import Mathlib.Data.Fin.Tuple.Basic

/-!
# Control programs

Programs made of the control operations of the installed definition, over data that no effect
of the grid takes for an effect value. What callbacks compute from their data is any function.
The escapes of the enclosing blocks and the effect values at hand are numbered, innermost
first.

## Main definitions

* `Value.isPlain`, `Datum`: data that is neither a signal, a carrier nor an outcome.
* `Exit`: how an effect value ends: with a value, an exception or an escape.
* `Control`: control programs inside so many blocks, with so many effect values at hand.
* `Control.program`, `Control.execution`: what they do, and running them by a definition.
-/

namespace EffectLayers

/-- Whether a value is none of those that effects build their representations from. -/
def Value.isPlain : Value → Bool
  | signal .. | carrier .. => false
  | ctor name _ => name != "Ok" && name != "Err"
  | _ => true

theorem Value.isSignal_of_isPlain {v : Value} (h : v.isPlain = true) : v.isSignal = false := by
  cases v <;> simp_all [isPlain, isSignal]

theorem Value.caught?_of_isPlain {v : Value} (h : v.isPlain = true) (tag : Tag) :
    v.caught? tag = none := by
  cases v <;> simp_all [isPlain, caught?]

/-- Plain data. -/
structure Datum where
  value : Value
  plain : value.isPlain = true

namespace Datum

def unit : Datum := ⟨.unit, rfl⟩

/-- A value as plain data. -/
def ofValue? (v : Value) : Option Datum := if h : v.isPlain = true then some ⟨v, h⟩ else none

@[simp] theorem ofValue?_value (d : Datum) : ofValue? d.value = some d := by
  simp [ofValue?, d.plain]

@[simp] theorem isSignal_value (d : Datum) : d.value.isSignal = false :=
  Value.isSignal_of_isPlain d.plain

@[simp] theorem caught?_value (d : Datum) (tag : Tag) : d.value.caught? tag = none :=
  Value.caught?_of_isPlain d.plain tag

end Datum

/-- How an effect value ends; escapes are addressed by `κ`. -/
inductive Exit (κ : Type) where
  | value (d : Datum)
  | exception (d : Datum)
  | escape (k : κ) (d : Datum)

namespace Exit

variable {κ κ' : Type}

/-- The exit with its escapes addressed otherwise. -/
def map (g : κ → κ') : Exit κ → Exit κ'
  | value d => value d
  | exception d => exception d
  | escape k d => escape (g k) d

end Exit

/-- A control program inside `n` blocks, with `m` effect values at hand. -/
inductive Control : Nat → Nat → Type where
  | pure {n m : Nat} (d : Datum) : Control n m
  | raise {n m : Nat} (d : Datum) : Control n m
  | bind {n m : Nat} (a : Control n m) (f : Datum → Control n m) : Control n m
  | handle {n m : Nat} (a : Control n m) (f : Datum → Control n m) : Control n m
  | cleanup {n m : Nat} (a f : Control n m) : Control n m
  | block {n m : Nat} (body : Control (n + 1) m) : Control n m
  /-- Call the escape of an enclosing block. -/
  | escape {n m : Nat} (k : Fin n) (d : Datum) : Control n m
  /-- A loop whose test and step are no effects, and may fault. -/
  | forPar {n m : Nat} (test : Datum → Except Fault Bool) (body : Datum → Control n m)
      (step : Datum → Except Fault Datum) (d : Datum) : Control n m
  /-- Log, as an effect of the installed definition. -/
  | record {n m : Nat} (d : Datum) : Control n m
  /-- A fault of the host. -/
  | fault {n m : Nat} (e : Fault) : Control n m
  /-- An effect value that is at hand, once more. -/
  | given {n m : Nat} (j : Fin m) : Control n m
  /-- Make an effect value, and have it at hand from then on. -/
  | share {n m : Nat} (a : Control n m) (rest : Control n (m + 1)) : Control n m

namespace Control

/-- A callback on plain data that refers to some values. -/
def callback (held : List Value) (f : Datum → Prog Value) : Callback where
  code v := do f (← Prog.ofOption (Datum.ofValue? v))
  holds := { values := held }

/-- The program of a control program, given the escapes of the blocks that it is in and the
effect values at hand. -/
def program : {n m : Nat} → Control n m → (Fin n → Value) → (Fin m → Value) → Prog Value
  | _, _, .pure d, _, _ => Ambient.invoke .pure [d.value]
  | _, _, .raise d, _, _ => Ambient.invoke .raise [d.value]
  | _, _, .bind a f, env, hand => do
    let a ← a.program env hand
    let f ← (callback (List.ofFn env ++ List.ofFn hand) fun d => (f d).program env hand).reify
    Ambient.invoke .bind [a, f]
  | _, _, .handle a f, env, hand => do
    let a ← a.program env hand
    let f ← (callback (List.ofFn env ++ List.ofFn hand) fun d => (f d).program env hand).reify
    Ambient.invoke .handle [a, f]
  | _, _, .cleanup a f, env, hand => do
    let a ← a.program env hand
    let f ← Closure.reify
      ⟨fun _ => f.program env hand, { values := List.ofFn env ++ List.ofFn hand }⟩
    Ambient.invoke .cleanup [a, f]
  | _, _, .block body, env, hand => do
    let body ← Closure.reify
      ⟨fun k => body.program (Fin.cons k env) hand,
        { values := List.ofFn env ++ List.ofFn hand }⟩
    Ambient.invoke .block [body]
  | _, _, .escape k d, env, _ => (env k).call d.value
  | _, _, .forPar test body step d, env, hand => do
    let test ← (callback [] fun d =>
      match test d with
      | .ok t => Pure.pure (.bool t)
      | .error e => throw e).reify
    let body ← (callback (List.ofFn env ++ List.ofFn hand) fun d =>
      (body d).program env hand).reify
    let step ← (callback [] fun d =>
      match step d with
      | .ok d => Pure.pure d.value
      | .error e => throw e).reify
    Ambient.invoke .forPar [test, body, step, d.value]
  | _, _, .record d, _, _ => Unary.record.apply d.value
  | _, _, .fault e, _, _ => throw e
  | _, _, .given j, _, hand => Pure.pure (hand j)
  | _, _, .share a rest, env, hand => do
    let a ← a.program env hand
    Prog.keeping [a] (rest.program env (Fin.cons a hand))

/-- Execute a closed control program by a definition. -/
def execution (p : Control 0 0) (d : DefId) : Prog Value := do
  let thunk ← Closure.reify { code := fun _ => p.program Fin.elim0 Fin.elim0 }
  d.execute thunk

end Control

end EffectLayers
