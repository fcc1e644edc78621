import EffectLayers.Proofs.Control.Faithful

/-!
# Control programs by faithful definitions

A definition that implements the control operations runs every control program as the program
means. The blocks that a program is in have tags, which are distinct, and an environment of
function values that escape to them.

## Main definitions

* `Control.Environment`: an environment of escapes.
* `Control.meaning`: what a closed control program means when it is executed.

## Main statements

* `Control.behaves_program`: with a faithful definition installed, a control program behaves as
  it means.
* `Control.execution_shown`: executed by it, from any world.
-/

namespace EffectLayers

namespace Exit

variable {κ κ' : Type}

theorem map_onValue (g : κ → κ') (x : Exit κ) (f : Datum → Behaviour (Exit κ)) :
    (x.onValue f).map (map g) = (x.map g).onValue fun d => (f d).map (map g) := by
  cases x <;> rfl

theorem map_onException (g : κ → κ') (x : Exit κ) (f : Datum → Behaviour (Exit κ)) :
    (x.onException f).map (map g) = (x.map g).onException fun d => (f d).map (map g) := by
  cases x <;> rfl

theorem map_cleanedBy (g : κ → κ') (x y : Exit κ) :
    (x.cleanedBy y).map g = (x.map g).cleanedBy (y.map g) := by
  cases y <;> rfl

theorem map_map {κ'' : Type} (g : κ → κ') (g' : κ' → κ'') (x : Exit κ) :
    (x.map g).map g' = x.map (g' ∘ g) := by
  cases x <;> rfl

/-- A tag that no other block has catches what is meant for its block. -/
theorem caughtAt_map_cons {n : Nat} {t : ScopeId} {tags : Fin n → ScopeId}
    (h : ∀ k, tags k ≠ t) (x : Exit (Fin (n + 1))) :
    (x.map (Fin.cons t tags)).caughtAt t = x.caught.map tags := by
  cases x with
  | value d => rfl
  | exception d => rfl
  | escape k d =>
    cases k using Fin.cases with
    | zero => simp [map, caughtAt, caught]
    | succ k => simp [map, caughtAt, caught, h k]

end Exit

theorem Behaviour.map_loop {κ κ' : Type} (g : κ → κ') (test : Datum → Behaviour Bool)
    (body : Datum → Behaviour (Exit κ)) (step : Datum → Behaviour Datum) (n : Nat) (d : Datum) :
    (loop test body step n d).map (Exit.map g) =
      loop test (fun d => (body d).map (Exit.map g)) step n d := by
  induction n generalizing d with
  | zero => rfl
  | succ n ih =>
    simp only [loop, map_bind']
    refine congrArg _ (funext fun t => ?_)
    cases t with
    | false => rfl
    | true =>
      simp only [if_true, map_bind', bind_map_left']
      refine congrArg _ (funext fun x => ?_)
      cases x with
      | value u => simp only [Exit.map, map_bind', ih]
      | exception u => rfl
      | escape k u => rfl

namespace Control

variable {c : Catalog} {host : DefId} {enc out : Exit ScopeId → Value} {d : Definition}
  {w w' : World} {n : Nat} {env : Fin n → Value} {tags : Fin n → ScopeId}

/-- An environment of function values that escape to blocks with distinct tags. -/
structure Environment (c : Catalog) (host : DefId) (enc : Exit ScopeId → Value) (w : World)
    (env : Fin n → Value) (tags : Fin n → ScopeId) : Prop where
  escapes : ∀ k, ∃ (id : FuncId) (f : Callback), env k = .func id ∧ w.functions[id]? = some f ∧
    ∀ b (v : Datum), Prog.Behaves c host b w enc (f.code v.value) (Pure.pure (.escape (tags k) v))
  taken : ∀ k, tags k < w.nextScope
  distinct : Function.Injective tags

namespace Environment

theorem empty : Environment c host enc w Fin.elim0 Fin.elim0 :=
  ⟨fun k => k.elim0, fun k => k.elim0, fun k => k.elim0⟩

theorem mono (h : Environment c host enc w env tags) (hg : w.Grows w') :
    Environment c host enc w' env tags := by
  refine ⟨fun k => ?_, fun k => (h.taken k).trans_le hg.scopes, h.distinct⟩
  obtain ⟨id, f, hk, hf, hb⟩ := h.escapes k
  exact ⟨id, f, hk, hg.functions id f hf, fun b v => (hb b v).mono hg⟩

/-- The escape of one more block, whose tag is none of those before. -/
theorem cons (h : Environment c host enc w env tags) {t : ScopeId} {id : FuncId} {f : Callback}
    (hfresh : ∀ k, tags k ≠ t) (ht : t < w.nextScope) (hf : w.functions[id]? = some f)
    (hb : ∀ b (v : Datum),
      Prog.Behaves c host b w enc (f.code v.value) (Pure.pure (.escape t v))) :
    Environment c host enc w (Fin.cons (.func id) env) (Fin.cons t tags) where
  escapes k := by
    cases k using Fin.cases with
    | zero => exact ⟨id, f, rfl, hf, hb⟩
    | succ k => exact h.escapes k
  taken k := by
    cases k using Fin.cases with
    | zero => exact ht
    | succ k => exact h.taken k
  distinct := Fin.cons_injective_iff.mpr
    ⟨fun ⟨k, hk⟩ => hfresh k hk, h.distinct⟩

end Environment

/-- A callback on plain data that is a known function value. -/
theorem behaves_callback {α : Type} {enc : α → Value} {id : FuncId} {b : Nat}
    {held : List Value} {f : Datum → Prog Value} {φ : Nat → Behaviour α}
    (hf : w.functions[id]? = some (callback held f)) (v : Datum)
    (h : ∀ b, Prog.Behaves c host b w enc (f v) (φ b)) :
    Prog.Behaves c host b w enc ((Value.func id).callback.code v.value) (.deeper b φ) := by
  refine Prog.Behaves.call hf fun b => ?_
  have hcode : (callback held f).code v.value = f v := by simp [callback, Prog.ofOption]
  rw [hcode]
  exact h b

open Behaviour in
/-- An operation is asked to go on from what a program ended with, by a callback that is made
then. -/
theorem behaves_goingOn (hd : c.get? host = some d) {b : Nat} {op : Operation} {p : Prog Value}
    {f : Callback} {φ : Behaviour (Exit (Fin n))}
    {ψ : Exit (Fin n) → Nat → Behaviour (Exit (Fin n))}
    (hp : Prog.Behaves c host b w enc p (φ.map (Exit.map tags)))
    (hop : ∀ x b id w₁, w.Grows w₁ → w₁.functions[id]? = some f →
      Prog.Behaves c host b w₁ enc (d.table.apply op [enc (x.map tags), .func id])
        ((ψ x b).map (Exit.map tags))) :
    Prog.Behaves c host b w enc (do
      let a ← p
      let f ← f.reify
      Ambient.invoke op [a, f]) ((φ >>= fun x => deeper b (ψ x)).map (Exit.map tags)) := by
  rw [map_bind']
  refine (Prog.Behaves.map_iff _ |>.mp hp).bind fun x => ?_
  refine Prog.Behaves.reify _ fun id w₁ hg hid => ?_
  rw [map_deeper]
  exact (Prog.Behaves.invoke hd fun b => hop x b id w₁ hg hid).ambient

open Behaviour in
/-- With a faithful definition installed, a control program behaves as it means. -/
theorem behaves_program (hd : c.get? host = some d) (hfaithful : d.Faithful c host enc out)
    {n m : Nat} (p : Control n m) {w : World} {env : Fin n → Value} {tags : Fin n → ScopeId}
    (henv : Environment c host enc w env tags) (hand : Fin m → Exit (Fin n)) (b : Nat) :
    Prog.Behaves c host b w enc (p.program env fun j => enc ((hand j).map tags))
      ((p.eval hand b).map (Exit.map tags)) := by
  induction p generalizing w b with
  | pure v =>
    rw [eval, map_deeper]
    exact (Prog.Behaves.invoke hd fun b => hfaithful.pure b w v).ambient
  | raise v =>
    rw [eval, map_deeper]
    exact (Prog.Behaves.invoke hd fun b => hfaithful.raise b w v).ambient
  | bind a f iha ihf =>
    refine behaves_goingOn hd (iha henv hand b) fun x b id w₁ hg hid => ?_
    rw [Exit.map_onValue]
    refine hfaithful.bind b w₁ (x.map tags) _ _ fun v => ?_
    rw [map_deeper]
    exact behaves_callback hid v fun b => ihf v (henv.mono hg) hand b
  | handle a f iha ihf =>
    refine behaves_goingOn hd (iha henv hand b) fun x b id w₁ hg hid => ?_
    rw [Exit.map_onException]
    refine hfaithful.handle b w₁ (x.map tags) _ _ fun v => ?_
    rw [map_deeper]
    exact behaves_callback hid v fun b => ihf v (henv.mono hg) hand b
  | cleanup a f iha ihf =>
    refine behaves_goingOn hd (iha henv hand b) fun x b id w₁ hg hid => ?_
    have hx : Exit.map tags ∘ x.cleanedBy = (x.map tags).cleanedBy ∘ Exit.map tags :=
      funext fun y => x.map_cleanedBy tags y
    rw [map_map', hx, ← map_map', map_deeper]
    refine hfaithful.cleanup b w₁ (x.map tags) _ _ ?_
    exact Prog.Behaves.call hid fun b => ihf (henv.mono hg) hand b
  | block body ih =>
    rw [eval, map_deeper]
    refine Prog.Behaves.reify _ fun id w₁ hg hid => ?_
    refine (Prog.Behaves.invoke hd fun b => ?_).ambient
    have henv := henv.mono hg
    have hfresh (t : ScopeId) (ht : w₁.nextScope ≤ t) (k) : tags k ≠ t :=
      ((henv.taken k).trans_le ht).ne
    refine hfaithful.block b w₁ _ (fun t =>
      (deeper b (body.eval fun j => (hand j).map Fin.succ)).map (Exit.map (Fin.cons t tags))) _
      ?_ ?_
    · intro t w₂ hg₂ ht ht' k hk
      refine Prog.Behaves.reify _ fun escape w₃ hg₃ hescape => ?_
      rw [map_deeper]
      refine Prog.Behaves.call ((hg₂.trans hg₃).functions id _ hid) fun b => ?_
      have henv' := (henv.mono (hg₂.trans hg₃)).cons (hfresh t ht) (ht'.trans_le hg₃.scopes)
        hescape fun b v => (hk b v).mono hg₃
      have h := ih henv' (fun j => (hand j).map Fin.succ) b
      simpa only [Exit.map_map, Fin.cons_comp_succ] using h
    · intro t ht
      rw [map_map', map_map']
      exact congrArg (Behaviour.map · _) (funext (Exit.caughtAt_map_cons (hfresh t ht)))
  | escape k v =>
    rw [eval, map_deeper]
    obtain ⟨id, f, hk, hf, hb⟩ := henv.escapes k
    rw [program, hk]
    exact Prog.Behaves.call hf fun b => hb b v
  | forPar test body step v ih =>
    rw [eval, map_deeper]
    refine Prog.Behaves.reify _ fun idTest w₁ hg₁ htest => ?_
    refine Prog.Behaves.reify _ fun idBody w₂ hg₂ hbody => ?_
    refine Prog.Behaves.reify _ fun idStep w₃ hg₃ hstep => ?_
    refine (Prog.Behaves.invoke hd fun b => ?_).ambient
    rw [map_loop]
    refine hfaithful.forPar b w₃ _ _ _ v _ _ _ (fun v => ?_) (fun v => ?_) (fun v => ?_)
    · have ht : Prog.Behaves c host b w₃ Value.bool
          ((Value.func idTest).callback.code v.value)
          (deeper b fun _ => ofExcept (test v)) := by
        refine behaves_callback ((hg₂.trans hg₃).functions _ _ htest) v fun b => ?_
        cases test v with
        | ok t => exact Prog.Behaves.pure t
        | error e => exact Prog.Behaves.throw e
      exact ht.encoded fun _ => rfl
    · rw [map_deeper]
      exact behaves_callback (hg₃.functions _ _ hbody) v fun b =>
        ih v (henv.mono ((hg₁.trans hg₂).trans hg₃)) hand b
    · refine behaves_callback hstep v fun b => ?_
      cases step v with
      | ok v => exact Prog.Behaves.pure v
      | error e => exact Prog.Behaves.throw e
  | record v =>
    rw [eval, map_bind']
    refine (Prog.Behaves.log v.value).bind fun _ => ?_
    rw [map_deeper]
    exact (Prog.Behaves.invoke hd fun b => hfaithful.pure b w .unit).ambient
  | fault e => exact Prog.Behaves.throw e
  | given j => exact Prog.Behaves.pure ((hand j).map tags)
  | share a rest iha ihr =>
    rw [eval, map_bind']
    refine (Prog.Behaves.map_iff _ |>.mp (iha henv hand b)).bind fun x => ?_
    refine Prog.Behaves.holding _ ?_
    let hand' : Fin (_ + 1) → Exit (Fin _) := Fin.cons x hand
    have h := ihr henv hand' b
    have hhand : Fin.cons (enc (x.map tags)) (fun j => enc ((hand j).map tags)) =
        fun j => enc ((hand' j).map tags) := by
      funext j
      cases j using Fin.cases <;> rfl
    rwa [← hhand] at h

open Behaviour in
/-- What a closed control program means when it is executed, with so many nested calls to
spend. -/
def meaning (p : Control 0 0) (b : Nat) : Behaviour (Exit ScopeId) :=
  (deeper b fun b => deeper b (p.eval Fin.elim0)).map (Exit.map Fin.elim0)

open Behaviour in
theorem meaning_mono (p : Control 0 0) {b b' : Nat} (h : b ≤ b') : p.meaning b ≤ p.meaning b' :=
  map_le_map _ <| deeper_le_deeper h fun _ _ h => deeper_le_deeper h fun _ _ h =>
    p.eval_mono Fin.elim0 h

open Behaviour in
/-- Executed by a faithful definition, from any world: whatever is installed there is back
afterwards. -/
theorem execution_shown (hd : c.get? host = some d) (hfaithful : d.Faithful c host enc out)
    (p : Control 0 0) (b : Nat) (w : World) :
    (p.meaning b).Shown out w ((p.execution host).run c b w) := by
  let f : Callback := { code := fun _ => p.program Fin.elim0 Fin.elim0 }
  let w₁ : World := { w with functions := w.functions.push f }
  have hf : w₁.functions[w.functions.size]? = some f := by simp [w₁]
  have hbehaves : Prog.Behaves c host b w₁ out
      (DefId.invoke host .run [.func w.functions.size]) (p.meaning b) := by
    rw [meaning, map_deeper]
    refine Prog.Behaves.invoke hd fun b => hfaithful.run b w₁ _ _ ?_
    rw [map_deeper]
    refine Prog.Behaves.call hf fun b => ?_
    have henv : Environment c host enc w₁ Fin.elim0 Fin.elim0 := .empty
    have hhand : Fin.elim0 = fun j : Fin 0 => enc ((Fin.elim0 j : Exit (Fin 0)).map Fin.elim0) :=
      funext fun j => j.elim0
    have h := behaves_program hd hfaithful p henv Fin.elim0 b
    rwa [← hhand] at h
  have hshown := hbehaves (w₁.entering (.installed host)) ((World.Grows.refl w₁).entering _) rfl
  have hrun : (p.execution host).run c b w =
      ((DefId.invoke host .run [.func w.functions.size]).run c b
        (w₁.entering (.installed host))).onward
          fun r w' => .finished r (w'.leaving (.installed host) w₁.toFrame) := by
    rw [← Prog.run_inside]
    rfl
  rw [hrun]
  cases hφ : p.meaning b with
  | exhausted =>
    rw [hφ] at hshown
    rw [show Prog.run c b _ _ = .halted .exhausted from hshown]
    rfl
  | ended r l =>
    rw [hφ] at hshown
    obtain ⟨w₂, ho, hg, -, hl⟩ := hshown
    rw [ho]
    have hg₁ : w.Grows w₁ := .push w f
    exact ⟨_, rfl, hg₁.trans ⟨hg.functions, hg.scopes⟩, rfl, hl⟩

end Control

end EffectLayers
