import EffectLayers.Proofs.Control.Basic

/-!
# What control programs mean

The meaning of a control program, without any definition: how it ends and what it logs, with so
many nested calls to spend. An escape ends the block that it is numbered by; there are no tags.

## Main definitions

* `Behaviour`: running out of calls, or a result or fault with what was logged.
* `Control.eval`: the behaviour of a control program.

## Main statements

* `Control.eval_mono`: a program that ends behaves alike with more calls to spend.
-/

namespace EffectLayers

/-- How a program behaves. -/
inductive Behaviour (α : Type) where
  | exhausted
  | ended (result : Except Fault α) (log : List Value)

namespace Behaviour

variable {α β γ κ : Type}

/-- The behaviour after something was logged. -/
def after (log : List Value) : Behaviour α → Behaviour α
  | exhausted => exhausted
  | ended r l => ended r (log ++ l)

/-- Go on with the result; a fault is kept. -/
def bind : Behaviour α → (α → Behaviour β) → Behaviour β
  | exhausted, _ => exhausted
  | ended (.error e) l, _ => ended (.error e) l
  | ended (.ok a) l, f => (f a).after l

/-- The behaviour with another result. -/
def map (g : α → β) : Behaviour α → Behaviour β
  | exhausted => exhausted
  | ended r l => ended (r.map g) l

instance : Monad Behaviour where
  pure a := ended (.ok a) []
  bind := bind

theorem pure_def (a : α) : (pure a : Behaviour α) = ended (.ok a) [] := rfl

theorem bind_def (φ : Behaviour α) (f : α → Behaviour β) : φ >>= f = φ.bind f := rfl

theorem after_nil (φ : Behaviour α) : φ.after [] = φ := by
  cases φ <;> rfl

theorem after_append (l m : List Value) (φ : Behaviour α) :
    φ.after (l ++ m) = (φ.after m).after l := by
  cases φ <;> simp [after]

theorem bind_ended_ok (φ : Behaviour α) : φ.bind (fun a => ended (.ok a) []) = φ := by
  rcases φ with _ | ⟨_ | a, l⟩ <;> simp [bind, after]

theorem bind_bind (φ : Behaviour α) (f : α → Behaviour β) (g : β → Behaviour γ) :
    (φ.bind f).bind g = φ.bind fun a => (f a).bind g := by
  rcases φ with _ | ⟨_ | a, l⟩
  · rfl
  · rfl
  · simp only [bind]
    rcases f a with _ | ⟨_ | b, m⟩
    · rfl
    · rfl
    · exact after_append l m (g b)

instance : LawfulMonad Behaviour :=
  LawfulMonad.mk' Behaviour bind_ended_ok (fun a f => after_nil (f a)) bind_bind

theorem map_bind' (g : β → γ) (φ : Behaviour α) (f : α → Behaviour β) :
    (φ >>= f).map g = φ >>= fun a => (f a).map g := by
  rcases φ with _ | ⟨_ | a, l⟩
  · rfl
  · rfl
  · simp only [bind_def, bind]
    cases f a <;> rfl

theorem bind_map_left' (g : α → β) (φ : Behaviour α) (f : β → Behaviour γ) :
    φ.map g >>= f = φ >>= fun a => f (g a) := by
  rcases φ with _ | ⟨_ | a, l⟩ <;> rfl

theorem map_map' (g : α → β) (h : β → γ) (φ : Behaviour α) :
    (φ.map g).map h = φ.map (h ∘ g) := by
  rcases φ with _ | ⟨_ | a, l⟩ <;> rfl

theorem map_eq_bind (g : α → β) (φ : Behaviour α) : φ.map g = φ >>= fun a => pure (g a) := by
  rcases φ with _ | ⟨_ | a, l⟩
  · rfl
  · rfl
  · simp [bind_def, bind, pure_def, after, map, Except.map]

/-- What ends at once. -/
def ofExcept (r : Except Fault α) : Behaviour α := ended r []

/-- Spend a call. -/
def deeper : Nat → (Nat → Behaviour α) → Behaviour α
  | 0, _ => exhausted
  | b + 1, f => f b

theorem map_deeper (g : α → β) (b : Nat) (f : Nat → Behaviour α) :
    (deeper b f).map g = deeper b fun b => (f b).map g := by
  cases b <;> rfl

/-- While the test holds: the body, then the step, for at most so many rounds. What is no value
ends the loop. -/
def loop (test : Datum → Behaviour Bool) (body : Datum → Behaviour (Exit κ))
    (step : Datum → Behaviour Datum) : Nat → Datum → Behaviour (Exit κ)
  | 0, _ => exhausted
  | n + 1, d => do
    if ← test d then
      match ← body d with
      | .value _ => loop test body step n (← step d)
      | x => pure x
    else pure (.value d)

end Behaviour

namespace Exit

variable {κ : Type}

/-- Go on with a value. -/
def onValue (x : Exit κ) (f : Datum → Behaviour (Exit κ)) : Behaviour (Exit κ) :=
  match x with
  | value d => f d
  | x => pure x

/-- Go on with the payload of an exception. -/
def onException (x : Exit κ) (f : Datum → Behaviour (Exit κ)) : Behaviour (Exit κ) :=
  match x with
  | exception d => f d
  | x => pure x

/-- How a computation ends whose cleanup ends with an exit: the last escape wins. -/
def cleanedBy (x : Exit κ) : Exit κ → Exit κ
  | value _ => x
  | y => y

/-- How a block ends: escapes to it become values. -/
def caught {n : Nat} : Exit (Fin (n + 1)) → Exit (Fin n)
  | value d => value d
  | exception d => exception d
  | escape k d => Fin.cases (value d) (fun k => escape k d) k

end Exit

open Behaviour in
/-- The behaviour of a control program, given how the effect values at hand end, with so many
nested calls to spend. An operation spends one call, and so does each of its callbacks. -/
def Control.eval : {n m : Nat} → Control n m → (Fin m → Exit (Fin n)) → Nat →
    Behaviour (Exit (Fin n))
  | _, _, .pure d, _, b => deeper b fun _ => Pure.pure (.value d)
  | _, _, .raise d, _, b => deeper b fun _ => Pure.pure (.exception d)
  | _, _, .bind a f, hand, b => do
    let x ← a.eval hand b
    deeper b fun b => x.onValue fun d => deeper b ((f d).eval hand)
  | _, _, .handle a f, hand, b => do
    let x ← a.eval hand b
    deeper b fun b => x.onException fun d => deeper b ((f d).eval hand)
  | _, _, .cleanup a f, hand, b => do
    let x ← a.eval hand b
    deeper b fun b => (deeper b (f.eval hand)).map x.cleanedBy
  | _, _, .block body, hand, b => deeper b fun b =>
    (deeper b (body.eval fun j => (hand j).map Fin.succ)).map Exit.caught
  | _, _, .escape k d, _, b => deeper b fun _ => Pure.pure (.escape k d)
  | _, _, .forPar test body step d, hand, b => deeper b fun b =>
    loop (fun d => deeper b fun _ => ofExcept (test d)) (fun d => deeper b ((body d).eval hand))
      (fun d => deeper b fun _ => ofExcept (step d)) b d
  | _, _, .record d, _, b => do
    ended (.ok ()) [d.value]
    deeper b fun _ => Pure.pure (.value .unit)
  | _, _, .fault e, _, _ => ofExcept (.error e)
  | _, _, .given j, hand, _ => Pure.pure (hand j)
  | _, _, .share a rest, hand, b => do
    let x ← a.eval hand b
    rest.eval (Fin.cons x hand) b

namespace Behaviour

variable {α β κ : Type}

/-- Running out of calls is below everything else. -/
instance : LE (Behaviour α) := ⟨fun φ ψ => φ = exhausted ∨ φ = ψ⟩

theorem le_rfl {φ : Behaviour α} : φ ≤ φ := .inr rfl

theorem exhausted_le {φ : Behaviour α} : exhausted ≤ φ := .inl rfl

theorem eq_of_ended_le {r : Except Fault α} {l : List Value} {φ : Behaviour α}
    (h : ended r l ≤ φ) : φ = ended r l := by
  rcases h with h | h
  · cases h
  · exact h.symm

theorem map_le_map {φ ψ : Behaviour α} (g : α → β) (h : φ ≤ ψ) : φ.map g ≤ ψ.map g := by
  rcases h with rfl | rfl
  · exact exhausted_le
  · exact le_rfl

theorem bind_le_bind {φ ψ : Behaviour α} {f g : α → Behaviour β} (h : φ ≤ ψ)
    (hfg : ∀ a, f a ≤ g a) : φ >>= f ≤ ψ >>= g := by
  rcases h with rfl | rfl
  · exact exhausted_le
  · rcases φ with _ | ⟨_ | a, l⟩
    · exact exhausted_le
    · exact le_rfl
    · simp only [bind_def, bind]
      rcases hfg a with h | h
      · rw [h]
        exact exhausted_le
      · rw [h]
        exact le_rfl

theorem deeper_le_deeper {b b' : Nat} {f g : Nat → Behaviour α} (hb : b ≤ b')
    (h : ∀ b b', b ≤ b' → f b ≤ g b') : deeper b f ≤ deeper b' g := by
  cases b with
  | zero => exact exhausted_le
  | succ b =>
    obtain ⟨b', rfl⟩ : ∃ k, b' = k + 1 := ⟨b' - 1, by omega⟩
    exact h b b' (by omega)

theorem loop_le_loop {test test' : Datum → Behaviour Bool}
    {body body' : Datum → Behaviour (Exit κ)} {step step' : Datum → Behaviour Datum}
    (ht : ∀ d, test d ≤ test' d) (hb : ∀ d, body d ≤ body' d) (hs : ∀ d, step d ≤ step' d)
    {n n' : Nat} (hn : n ≤ n') (d : Datum) :
    loop test body step n d ≤ loop test' body' step' n' d := by
  induction n generalizing n' d with
  | zero => exact exhausted_le
  | succ n ih =>
    obtain ⟨n', rfl⟩ : ∃ k, n' = k + 1 := ⟨n' - 1, by omega⟩
    refine bind_le_bind (ht d) fun t => ?_
    cases t with
    | false => exact le_rfl
    | true =>
      refine bind_le_bind (hb d) fun x => ?_
      cases x with
      | value u => exact bind_le_bind (hs d) fun d => ih (by omega) d
      | exception u => exact le_rfl
      | escape k u => exact le_rfl

end Behaviour

theorem Exit.onValue_le {κ : Type} (x : Exit κ) {f g : Datum → Behaviour (Exit κ)}
    (h : ∀ d, f d ≤ g d) : x.onValue f ≤ x.onValue g := by
  cases x with
  | value d => exact h d
  | exception d => exact Behaviour.le_rfl
  | escape k d => exact Behaviour.le_rfl

theorem Exit.onException_le {κ : Type} (x : Exit κ) {f g : Datum → Behaviour (Exit κ)}
    (h : ∀ d, f d ≤ g d) : x.onException f ≤ x.onException g := by
  cases x with
  | value d => exact Behaviour.le_rfl
  | exception d => exact h d
  | escape k d => exact Behaviour.le_rfl

open Behaviour in
/-- With more calls to spend, a program that ends does so alike. -/
theorem Control.eval_mono {n m : Nat} (p : Control n m) (hand : Fin m → Exit (Fin n))
    {b b' : Nat} (h : b ≤ b') : p.eval hand b ≤ p.eval hand b' := by
  induction p generalizing b b' with
  | pure d => exact deeper_le_deeper h fun _ _ _ => le_rfl
  | raise d => exact deeper_le_deeper h fun _ _ _ => le_rfl
  | bind a f iha ihf =>
    refine bind_le_bind (iha hand h) fun x => deeper_le_deeper h fun b b' h => ?_
    exact x.onValue_le fun d => deeper_le_deeper h fun _ _ h => ihf d hand h
  | handle a f iha ihf =>
    refine bind_le_bind (iha hand h) fun x => deeper_le_deeper h fun b b' h => ?_
    exact x.onException_le fun d => deeper_le_deeper h fun _ _ h => ihf d hand h
  | cleanup a f iha ihf =>
    refine bind_le_bind (iha hand h) fun x => deeper_le_deeper h fun b b' h => ?_
    exact map_le_map _ (deeper_le_deeper h fun _ _ h => ihf hand h)
  | block body ih =>
    refine deeper_le_deeper h fun b b' h => map_le_map _ ?_
    exact deeper_le_deeper h fun _ _ h => ih _ h
  | escape k d => exact deeper_le_deeper h fun _ _ _ => le_rfl
  | forPar test body step d ih =>
    refine deeper_le_deeper h fun b b' h =>
      loop_le_loop (fun d => ?_) (fun d => ?_) (fun d => ?_) h d
    · exact deeper_le_deeper h fun _ _ _ => le_rfl
    · exact deeper_le_deeper h fun _ _ h => ih d hand h
    · exact deeper_le_deeper h fun _ _ _ => le_rfl
  | record d => exact bind_le_bind le_rfl fun _ => deeper_le_deeper h fun _ _ _ => le_rfl
  | fault e => exact le_rfl
  | given j => exact le_rfl
  | share a rest iha ihr => exact bind_le_bind (iha hand h) fun x => ihr _ h

end EffectLayers
