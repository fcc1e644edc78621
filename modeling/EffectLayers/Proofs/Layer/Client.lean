import EffectLayers.Proofs.Layer.CoercedYields
import EffectLayers.Proofs.Layer.ParametricLayers
import Mathlib.Data.Fin.Tuple.Basic

/-!
# Clients of an effect

Programs that make effect values with the operations of a table, nested in any way, and compute
whatever they like from the data that their callbacks are given. Effect values occur only where an
operation takes one. The escapes of the enclosing blocks and the effect values at hand are numbered,
innermost first.

## Main definitions

* `Client`: clients inside so many blocks, with so many effect values at hand.
* `Client.on`: what a client does on a table.

## Main statements

* `Client.answers_on`: on tables that correspond, what a client answers corresponds.
* `Prog.Similar.observed_run`: what similar programs show is the same.
-/

namespace EffectLayers

/-- A client inside `n` blocks, with `m` effect values at hand. As a callback it may also answer raw
values for effect values, those of `Raw`. It may take a value for an effect value as it is if that
is one of `Literal`. Callbacks hold what they refer to, and what is given beside that. -/
inductive Client (Literal Raw : Value → Prop) : (callback : Bool) → Nat → Nat → Type 1 where
  | pure {b : Bool} {n m : Nat} (v : Value) : Client Literal Raw b n m
  | raise {b : Bool} {n m : Nat} (e : Value) : Client Literal Raw b n m
  | literal {b : Bool} {n m : Nat} (v : Value) (h : Literal v) : Client Literal Raw b n m
  /-- A raw value, which a callback answers. -/
  | raw {n m : Nat} (v : Value) (h : Raw v) : Client Literal Raw true n m
  /-- An effect value that is at hand. -/
  | given {b : Bool} {n m : Nat} (j : Fin m) : Client Literal Raw b n m
  /-- Make an effect value, and have it at hand from then on. -/
  | share {b : Bool} {n m : Nat} (a : Client Literal Raw false n m)
      (rest : Client Literal Raw b n (m + 1)) : Client Literal Raw b n m
  /-- Do anything else first, for a result that is data. -/
  | host {b : Bool} {n m : Nat} (p : Prog Value) (rest : Value → Client Literal Raw b n m) :
      Client Literal Raw b n m
  | bind {b : Bool} {n m : Nat} (a : Client Literal Raw false n m) (held : Holding)
      (f : Value → Client Literal Raw true n m) : Client Literal Raw b n m
  | map {b : Bool} {n m : Nat} (a : Client Literal Raw false n m) (f : Callback) :
      Client Literal Raw b n m
  | pair {b : Bool} {n m : Nat} (x y : Client Literal Raw false n m) : Client Literal Raw b n m
  | arr {b : Bool} {n m k : Nat} (items : Fin k → Client Literal Raw false n m) :
      Client Literal Raw b n m
  | handle {b : Bool} {n m : Nat} (a : Client Literal Raw false n m) (held : Holding)
      (f : Value → Client Literal Raw true n m) : Client Literal Raw b n m
  | cleanup {b : Bool} {n m : Nat} (a : Client Literal Raw false n m) (held : Holding)
      (f : Client Literal Raw true n m) : Client Literal Raw b n m
  | const {b : Bool} {n m : Nat} (a : Client Literal Raw false n m) (v : Value) :
      Client Literal Raw b n m
  | unshiftTo {b : Bool} {n m : Nat} (a : Client Literal Raw false n m) (items : Value) :
      Client Literal Raw b n m
  | alt {b : Bool} {n m k : Nat} (items : Fin k → Client Literal Raw false n m) :
      Client Literal Raw b n m
  | plus {b : Bool} {n m : Nat} (x y : Client Literal Raw false n m) : Client Literal Raw b n m
  | empty {b : Bool} {n m : Nat} : Client Literal Raw b n m
  | opt {b : Bool} {n m : Nat} (a : Client Literal Raw false n m) : Client Literal Raw b n m
  | block {b : Bool} {n m : Nat} (held : Holding) (body : Client Literal Raw true (n + 1) m) :
      Client Literal Raw b n m
  | scope {b : Bool} {n m : Nat} (held : Holding) (body : Client Literal Raw true (n + 1) m) :
      Client Literal Raw b n m
  /-- Call the escape of an enclosing block. -/
  | escape {b : Bool} {n m : Nat} (k : Fin n) (v : Value) : Client Literal Raw b n m
  | iterate {b : Bool} {n m : Nat} (held : Holding) (body : Value → Client Literal Raw true n m)
      (v : Value) : Client Literal Raw b n m
  | forPar {b : Bool} {n m : Nat} (test : Test) (held : Holding)
      (body : Value → Client Literal Raw true n m) (step : Callback) (v : Value) :
      Client Literal Raw b n m
  /-- A generator that yields what is made of the data that a source yields. -/
  | seq {b : Bool} {n m : Nat} (source : Source) (held : Holding)
      (yields : Value → Client Literal Raw false n m) : Client Literal Raw b n m
  /-- Run a thunk, for a result that is data. -/
  | run {b : Bool} {n m : Nat} (held : Holding) (thunk : Client Literal Raw true n m)
      (rest : Value → Client Literal Raw b n m) : Client Literal Raw b n m

namespace Client

/-- What a callback of a client holds: escapes, effect values at hand, and anything else. -/
def holds {n m : Nat} (env : Fin n → Callback) (hand : Fin m → Value) (held : Holding) : Holding :=
  (List.ofFn env).foldr (fun escape h => escape.holds ++ h) { values := List.ofFn hand } ++ held

/-- The results of programs, each of which is held until the last one has run. -/
def gather : List (Prog Value) → Prog (List Value)
  | [] => Pure.pure []
  | p :: ps => do
    let v ← p
    return v :: (← Prog.keeping [v] (gather ps))

section

variable {Literal Raw : Value → Prop} (t : Table) (lift : Value → Prog Value)

/-- What a client does on a table, given the escapes of the blocks that it is in and the effect
values at hand. A raw value is answered as what `lift` makes of it. -/
def on : {b : Bool} → {n m : Nat} → Client Literal Raw b n m → (Fin n → Callback) →
    (Fin m → Value) → Prog Value
  | _, _, _, .pure v, _, _ => t .pure v
  | _, _, _, .raise e, _, _ => t .raise e
  | _, _, _, .literal v _, _, _ => Pure.pure v
  | _, _, _, .raw v _, _, _ => lift v
  | _, _, _, .given j, _, hand => Pure.pure (hand j)
  | _, _, _, .share a rest, env, hand => do
    let a ← a.on env hand
    Prog.keeping [a] (rest.on env (Fin.cons a hand))
  | _, _, _, .host p rest, env, hand => do
    let v ← p
    Prog.keeping [v] ((rest v).on env hand)
  | _, _, _, .bind a held f, env, hand => do
    t .bind (← a.on env hand) ⟨fun v => (f v).on env hand, holds env hand held⟩
  | _, _, _, .map a f, env, hand => do t .map (← a.on env hand) f
  | _, _, _, .pair x y, env, hand => do
    let x ← x.on env hand
    t .pair x (← Prog.keeping [x] (y.on env hand))
  | _, _, _, .arr items, env, hand => do
    t .arr (← gather (List.ofFn fun i => (items i).on env hand))
  | _, _, _, .handle a held f, env, hand => do
    t .handle (← a.on env hand) ⟨fun v => (f v).on env hand, holds env hand held⟩
  | _, _, _, .cleanup a held f, env, hand => do
    t .cleanup (← a.on env hand) ⟨f.on env hand, holds env hand held⟩
  | _, _, _, .const a v, env, hand => do t .const (← a.on env hand) v
  | _, _, _, .unshiftTo a items, env, hand => do t .unshiftTo (← a.on env hand) items
  | _, _, _, .alt items, env, hand => do
    t .alt (← gather (List.ofFn fun i => (items i).on env hand))
  | _, _, _, .plus x y, env, hand => do
    let x ← x.on env hand
    t .plus x (← Prog.keeping [x] (y.on env hand))
  | _, _, _, .empty, _, _ => t .empty
  | _, _, _, .opt a, env, hand => do t .opt (← a.on env hand)
  | _, _, _, .block held body, env, hand =>
    t .block ⟨fun escape => body.on (Fin.cons escape env) hand, holds env hand held⟩
  | _, _, _, .scope held body, env, hand =>
    t .scope ⟨fun escape => body.on (Fin.cons escape env) hand, holds env hand held⟩
  | _, _, _, .escape k v, env, _ => (env k).call v
  | _, _, _, .iterate held body v, env, hand =>
    t .iterate ⟨fun v => (body v).on env hand, holds env hand held⟩ v
  | _, _, _, .forPar test held body step v, env, hand =>
    t .forPar test ⟨fun v => (body v).on env hand, holds env hand held⟩ step v
  | _, _, _, .seq source held yields, env, hand =>
    t .seq (source.mapYields ⟨fun v => (yields v).on env hand, holds env hand held⟩)
  | _, _, _, .run held thunk rest, env, hand => do
    let v ← t .run ⟨thunk.on env hand, holds env hand held⟩
    Prog.keeping [v] ((rest v).on env hand)

end

/-! ## Clients on tables that correspond -/

section

variable {C : Correspondence}

theorem referencesAll_map (vs : List Value) :
    Value.referencesAll (vs.map C.value) = Value.referencesAll vs := by
  induction vs with
  | nil => rfl
  | cons v vs ih => simp only [List.map_cons, Value.referencesAll, C.references_value, ih]

theorem values_similar (vs : List Value) :
    Holding.Similar { values := vs.map C.value } { values := vs } :=
  ⟨referencesAll_map vs, rfl⟩

theorem holds_similar {n m : Nat} {env env' : Fin n → Callback} {hand hand' : Fin m → Value}
    (henv : ∀ k, C.Calls false (env k) (env' k)) (hhand : ∀ j, hand j = C.value (hand' j))
    (held : Holding) : (holds env hand held).Similar (holds env' hand' held) := by
  refine .append ?_ (.refl held)
  induction n with
  | zero =>
    have hvalues : List.ofFn hand = (List.ofFn hand').map C.value := by
      rw [List.map_ofFn]
      exact congrArg List.ofFn (funext hhand)
    rw [hvalues]
    exact values_similar _
  | succ n ih =>
    rw [List.ofFn_succ, List.ofFn_succ]
    exact (henv 0).holds.append (ih fun k => henv k.succ)

theorem gather_similar {k : Nat} {ps qs : Fin k → Prog Value}
    (h : ∀ i, C.Answers false (ps i) (qs i)) :
    (gather (List.ofFn ps)).Similar (do return (← gather (List.ofFn qs)).map C.value) := by
  induction k with
  | zero => exact .refl _
  | succ k ih =>
    rw [List.ofFn_succ, List.ofFn_succ]
    have hrest (v : Value) := (ih fun i => h i.succ).holding_map (values_similar (C := C) [v])
    refine ((h 0).bind_left _).trans ?_
    simp only [gather, bind_assoc, pure_bind]
    refine .bind_right _ fun v => ((hrest v).bind_left _).trans (.of_eq ?_)
    simp only [bind_assoc, pure_bind, List.map_cons]
    rfl

variable {Literal Raw : Value → Prop} {t t' : Table} {lift lift' : Value → Prog Value}

/-- On tables that correspond, what a client answers corresponds. -/
theorem answers_on (ht : ∀ op : Operation, op ≠ .reify → op.Related C (t op) (t' op))
    (hraw : ∀ v, Raw v → C.Answers true (lift v) (lift' v))
    (hliteral : ∀ v, Literal v → C.value v = v) {b : Bool} {n m : Nat}
    (p : Client Literal Raw b n m) {env env' : Fin n → Callback} {hand hand' : Fin m → Value}
    (henv : ∀ k, C.Calls false (env k) (env' k)) (hhand : ∀ j, hand j = C.value (hand' j)) :
    C.Answers b (p.on t lift env hand) (p.on t' lift' env' hand') := by
  induction p with
  | pure v => exact .of_false (ht .pure nofun v) _
  | raise e => exact .of_false (ht .raise nofun e) _
  | literal v h =>
    have hpure := Correspondence.Answers.pure (C := C) v
    rw [hliteral v h] at hpure
    exact hpure _
  | raw v h => exact hraw v h
  | given j =>
    have hpure := Correspondence.Answers.pure (C := C) (hand' j)
    rw [← hhand j] at hpure
    exact hpure _
  | share a rest iha ihrest =>
    refine .bind (iha henv hhand) fun a => .holding (values_similar [a]) (ihrest henv fun j => ?_)
    cases j using Fin.cases with
    | zero => rfl
    | succ j => exact hhand j
  | host p rest ih => exact .bind_similar (.refl p) fun v => .keeping [v] (ih v henv hhand)
  | bind a held f iha ihf =>
    refine .bind (iha henv hhand) fun a => .of_false (ht .bind nofun a _ _ ⟨?_, fun v => ?_⟩) _
    · exact holds_similar henv hhand held
    · exact ihf v henv hhand
  | map a f iha =>
    exact .bind (iha henv hhand) fun a => .of_false (ht .map nofun a f f (.refl f)) _
  | pair x y ihx ihy =>
    refine .bind (ihx henv hhand) fun x => .bind (.holding (values_similar [x]) ?_) fun y => ?_
    · exact ihy henv hhand
    · exact .of_false (ht .pair nofun x y) _
  | plus x y ihx ihy =>
    refine .bind (ihx henv hhand) fun x => .bind (.holding (values_similar [x]) ?_) fun y => ?_
    · exact ihy henv hhand
    · exact .of_false (ht .plus nofun x y) _
  | arr items ih =>
    exact .bind_map (gather_similar fun i => ih i henv hhand) fun vs =>
      .of_false (ht .arr nofun vs) _
  | alt items ih =>
    exact .bind_map (gather_similar fun i => ih i henv hhand) fun vs =>
      .of_false (ht .alt nofun vs) _
  | handle a held f iha ihf =>
    refine .bind (iha henv hhand) fun a => .of_false (ht .handle nofun a _ _ ⟨?_, fun v => ?_⟩) _
    · exact holds_similar henv hhand held
    · exact ihf v henv hhand
  | cleanup a held f iha ihf =>
    refine .bind (iha henv hhand) fun a => .of_false (ht .cleanup nofun a _ _ ⟨?_, ?_⟩) _
    · exact holds_similar henv hhand held
    · exact ihf henv hhand
  | const a v iha => exact .bind (iha henv hhand) fun a => .of_false (ht .const nofun a v) _
  | unshiftTo a items iha =>
    exact .bind (iha henv hhand) fun a => .of_false (ht .unshiftTo nofun a items) _
  | empty => exact .of_false (ht .empty nofun) _
  | opt a iha => exact .bind (iha henv hhand) fun a => .of_false (ht .opt nofun a) _
  -- Both bodies are handed an escape of their own: the two go in front of those that correspond.
  | block held body ih =>
    refine .of_false (ht .block nofun _ _ ⟨holds_similar henv hhand held, ?_⟩) _
    refine fun escape escape' hescape => ih (fun k => ?_) hhand
    cases k using Fin.cases with
    | zero => exact hescape
    | succ k => exact henv k
  | scope held body ih =>
    refine .of_false (ht .scope nofun _ _ ⟨holds_similar henv hhand held, ?_⟩) _
    refine fun escape escape' hescape => ih (fun k => ?_) hhand
    cases k using Fin.cases with
    | zero => exact hescape
    | succ k => exact henv k
  | escape k v => exact .of_false (((henv k).code v).holding (henv k).holds) _
  | iterate held body v ih =>
    refine .of_false (ht .iterate nofun _ _ ⟨holds_similar henv hhand held, fun v => ?_⟩ v) _
    exact ih v henv hhand
  | forPar test held body step v ih =>
    refine .of_false (ht .forPar nofun test test _ _ step step (.refl test) ⟨?_, fun v => ?_⟩
      (.refl step) v) _
    · exact holds_similar henv hhand held
    · exact ih v henv hhand
  | seq source held yields ih =>
    refine .of_false (ht .seq nofun _ _ (.mapYields (.refl source) ⟨?_, fun v => ?_⟩)) _
    · exact holds_similar henv hhand held
    · exact ih v henv hhand
  | run held thunk rest ih ihrest =>
    have hheld := holds_similar henv hhand held
    exact .bind_similar (ht .run nofun _ _ ⟨hheld, ih henv hhand⟩) fun v =>
      .keeping [v] (ihrest v henv hhand)

end

end Client

theorem Outcome.Similar.observed {α : Type} {o o' : Outcome α} (h : o.Similar o') :
    o.observed = o'.observed := by
  cases h with
  | halted h => rfl
  | finished r hw =>
    rw [hw.eq]
    rfl

/-- What similar programs show is the same. -/
theorem Prog.Similar.observed_run {α : Type} {p q : Prog α} (h : p.Similar q) (c : Catalog)
    (b : Nat) (w : World) : (p.run c b w).observed = (q.run c b w).observed :=
  (h.run c b (.refl w)).observed

end EffectLayers
