import EffectLayers.Proofs.Layer.ParametricLayers
import EffectLayers.Proofs.Session.Made

/-!
# The definitions of a session only call their callbacks

Whatever a session makes is the complete table of a seed, and can do nothing with a callback but
call it: expressions that stand in for operations are handed callbacks as function values.

## Main definitions

* `Definition.Genuine`: a definition that is made of a seed and only calls its callbacks.
* `Invariant.genuine`: every way of making definitions makes such.

## Main statements

* `Session.genuine_run`: all definitions of a session are such.
-/

namespace EffectLayers

open Correspondence

/-- The definition is the complete table of a seed, and its operations only call their callbacks. -/
structure Definition.Genuine (d : Definition) : Prop where
  seeded : ∃ s id, Seed.definition? s id = some d
  parametric : d.table.Parametric

/-- The operations that the seed gives only call their callbacks, and so do those of all that it is
layered on. -/
structure Seed.Genuine (s : Seed) : Prop where
  ops : s.Parametric
  base : ∀ b, s.base = some b → b.All Definition.Genuine

namespace Definition

variable {d : Definition}

/-- A seed on top of a genuine definition. -/
theorem All.onTop (h : d.All Genuine) {s : Seed} (hs : s.base = some d) (hops : s.Parametric) :
    s.Genuine :=
  ⟨hops, fun _ hb => Option.some.inj (hs.symm.trans hb) ▸ h⟩

end Definition

namespace Seed.Genuine

theorem definition? {s : Seed} (h : s.Genuine) {id : DefId} {d : Definition}
    (hd : s.definition? id = some d) : d.All Definition.Genuine := by
  refine .intro ⟨⟨s, id, hd⟩, h.ops.definition? hd⟩ fun b hb => h.base b ?_
  obtain ⟨lift, -, rfl⟩ := Option.map_eq_some_iff.mp hd
  exact hb

theorem set {s : Seed} (h : s.Genuine) {op : Operation} {f : Signature op}
    (hf : op.Related same f f) : (s.set op f).Genuine :=
  ⟨h.ops.set hf, h.base⟩

end Seed.Genuine

/-! ## Loops that iterate -/

namespace Effects

theorem iterateFrom_similar {k l : Callback} (hkl : k.Similar l) (n : Nat) (v : Value) :
    (iterateFrom k n v).Similar (iterateFrom l n v) := by
  induction n generalizing v with
  | zero => exact .refl _
  | succ n ih =>
    refine (hkl.call v).bind fun result => ?_
    split
    · exact .refl _
    · exact ih result

theorem forParFrom_similar {test test' : Test} {k l step step' : Callback}
    (htest : test.Similar test') (hkl : k.Similar l) (hstep : step.Similar step') (n : Nat)
    (v : Value) :
    (forParFrom test k step n v).Similar (forParFrom test' l step' n v) := by
  induction n generalizing v with
  | zero => exact .refl _
  | succ n ih =>
    refine ((htest.call v).inside _).bind fun go => ?_
    cases go with
    | false => exact .refl _
    | true =>
      refine ((hkl.call v).inside _).bind fun result => ?_
      split
      · exact .refl _
      · exact ((hstep.call v).inside _).bind ih

end Effects

/-! ## Sessions -/

/-- Every way of making definitions makes genuine ones, layered on genuine ones. -/
def Invariant.genuine : Invariant where
  definition d := d.All Definition.Genuine
  seed := Seed.Genuine
  operation op f := op.Related same f f
  body _ := True
  made h hd := h.definition? hd
  set h hf := h.set hf
  override _ op _ _ := op.related_ofBody _
  escape h := h.onTop (by rw [Escape.seed]; split <;> rfl) h.self.parametric.escape
  carrier _ h := h.onTop rfl (h.self.parametric.carrier _)
  coercion h := h.onTop rfl h.self.parametric.coercion
  context mode self h := h.onTop rfl (h.self.parametric.context mode self)
  base h hb := h.base hb
  given layer reinstall h := by
    refine h.onTop rfl fun op f hf => ?_
    dsimp only at hf
    split at hf
    · exact Option.some.inj hf ▸ h.self.parametric op
    · cases hf
  nothing _ := ⟨nofun, nofun⟩
  identity := ⟨.identity, nofun⟩
  either := ⟨.either, nofun⟩
  results := ⟨.results, nofun⟩
  boxed := ⟨.boxed, nofun⟩
  forPar _ _ _ _ _ _ htest hkl hstep v := answers_same.mpr <|
    .holding ((htest.holds.append (calls_same.mp hkl).holds).append hstep.holds) <|
      .bounded fun n => Effects.forParFrom_similar htest (calls_same.mp hkl) hstep n v
  iterate _ _ hkl v := answers_same.mpr <|
    .bounded fun n => Effects.iterateFrom_similar (calls_same.mp hkl) n v

theorem SeedExpr.bodies_true (e : SeedExpr) : e.Bodies fun _ => True := by
  induction e with
  | override _ _ _ _ ih => exact ⟨ih, trivial⟩
  | _ => trivial

theorem Step.bodies_true (t : Step) : t.Bodies fun _ => True := by
  cases t with
  | define _ r => cases r <;> first | exact SeedExpr.bodies_true _ | trivial
  | showSeed e => exact e.bodies_true
  | _ => trivial

/-- Whatever the steps of a session are, each of its definitions is genuine after each of them. -/
theorem Session.genuine_run {ts : List Step} {rs : List (Reply × Session)}
    (hr : Session.run ts .empty = some rs) {r : Reply × Session} (hmem : r ∈ rs) {i : DefId}
    {d : Definition} (hd : r.2.catalog.get? i = some d) : d.Genuine :=
  (Invariant.holds_run (I := .genuine) Invariant.holds_empty (fun t _ => t.bodies_true) hr r hmem
    i d hd).self

end EffectLayers
