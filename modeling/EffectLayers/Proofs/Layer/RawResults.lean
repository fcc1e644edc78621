import EffectLayers.Proofs.Control.Basic
import EffectLayers.Proofs.Layer.Client

/-!
# Raw results mean `pure`

With coercion among the layers, a callback may answer a raw value where it would answer `pure` of
it: no client shows the difference, whatever else is layered on top. The value must be none that the
effect takes for an effect value.

## Main definitions

* `Definition.Promotes`: `pure` and `coerce` do the same to raw values.
* `Operation.settling`: the operations whose callbacks answer effect values.
* `Definition.Tolerates`: what callbacks answer matters only up to `coerce`.

## Main statements

* `Seed.promotes_build`: everything built with coercion promotes and tolerates.
* `Effects.raw_results`: raw results in clients of the ready-made effects.
-/

namespace EffectLayers

open Correspondence

/-- The operations whose callbacks answer effect values. -/
def Operation.settling : List Operation :=
  [bind, handle, cleanup, block, scope, iterate, forPar, run]

namespace Definition

/-- The operations only call their callbacks, `coerce` computes `f` at once and changes nothing that
it has answered, and `pure` does the same to the values of `Raw`. -/
structure Promotes (d : Definition) (f : Value → Except Fault Value) (Raw : Value → Prop) :
    Prop where
  parametric : d.table.Parametric
  coerces : d.Coerces f
  lifts : ∀ v, Raw v → (d.table .pure v).Alike (.done (f v))

/-- What callbacks answer for effect values matters only up to what `f` makes of it. -/
def Tolerates (d : Definition) (f : Value → Except Fault Value) : Prop :=
  ∀ op ∈ Operation.settling, op.Related (upTo f) (d.table op) (d.table op)

variable {inner d : Definition} {f : Value → Except Fault Value} {Raw : Value → Prop} {id : DefId}

/-- On a definition that tolerates raw results, every operation of a client does. -/
theorem Tolerates.related (ht : d.Tolerates f) (h : d.table.Parametric) {op : Operation}
    (hreify : op ≠ .reify) : op.Related (upTo f) (d.table op) (d.table op) := by
  by_cases hop : op ∈ Operation.settling
  · exact ht op hop
  · cases op with
    | bind | handle | cleanup | block | scope | iterate | forPar | run =>
      exact absurd (by decide) hop
    | reify => exact absurd rfl hreify
    | seq => exact fun g g' hg => h .seq g g' hg.of_upTo
    | map => exact h .map
    | _ => exact Operation.related_refl rfl _

/-! ## Layers -/

theorem Promotes.of_seed {s : Seed} (hs : s.Parametric) (hc : s.Coerces f)
    (hlifts : ∀ lift, s.ops .pure = some lift → ∀ v, Raw v → (lift v).Alike (.done (f v)))
    (hd : s.definition? id = some d) : d.Promotes f Raw := by
  refine ⟨hs.definition? hd, hc.definition? hd, ?_⟩
  obtain ⟨lift, hlift, rfl⟩ := Option.map_eq_some_iff.mp hd
  exact hlifts lift hlift

namespace Promotes

variable (h : inner.Promotes f Raw)

include h

theorem escape (hd : (Escape.seed inner).definition? id = some d) : d.Promotes f Raw := by
  refine .of_seed h.parametric.escape h.coerces.escape (fun lift hlift => ?_) hd
  have hpure : (Escape.seed inner).ops .pure = some (inner.table .pure) := by
    rw [Escape.seed]
    split <;> rfl
  exact Option.some.inj (hpure.symm.trans hlift) ▸ h.lifts

/-- What is no carrier is packed by `pure` and by `coerce`. -/
theorem carrier {brand : Brand} (hRaw : ∀ v, Raw v → ∀ b inner, v ≠ .carrier b inner)
    (hd : ((inner.packing brand).seed inner).definition? id = some d) :
    d.Promotes ((inner.packing brand).coerced f) Raw := by
  let w := inner.packing brand
  refine .of_seed (h.parametric.carrier w) (h.coerces.carrier brand) (fun lift hlift v hv => ?_) hd
  obtain rfl := Option.some.inj hlift
  have hinner : w.inner? v = none := by
    unfold Packing.inner?
    split
    · exact absurd rfl (hRaw _ hv _ _)
    · rfl
  refine ((h.lifts v hv).bind_left _).trans (.of_eq ?_)
  simp only [Packing.coerced]
  rw [show (inner.packing brand).inner? v = none from hinner]
  cases f v <;> rfl

theorem coercion (hd : (Coercion.seed inner).definition? id = some d) :
    d.Promotes f Raw ∧ d.Tolerates f := by
  constructor
  · refine .of_seed h.parametric.coercion h.coerces.coercion (fun lift hlift => ?_) hd
    exact Option.some.inj hlift ▸ h.lifts
  · intro op hop
    have hcoerce {p q : Prog Value} (hpq : (upTo f).Answers true p q) :
        (p >>= inner.table .coerce).Similar (q >>= inner.table .coerce) := by
      have hat (p : Prog Value) :
          (p >>= inner.table .coerce).Similar (p >>= fun v => .done (f v)) :=
        .bind_right p fun v => (h.coerces.computes v).similar
      exact (hat p).trans ((answers_upTo_true.mp hpq).trans (hat q).symm)
    obtain ⟨g, hg⟩ : ∃ g, (Coercion.seed inner).ops op = some g := by
      cases op with
      | bind | handle | cleanup | block | scope | iterate | forPar | run => exact ⟨_, rfl⟩
      | _ => exact absurd hop (by decide)
    rw [Seed.table_given hd op hg]
    exact Coercion.related_of_ops h.parametric hcoerce hg

theorem context (ht : inner.Tolerates f) {mode : ContextMode}
    (hd : (inner.contextSeed mode id).definition? id = some d) :
    d.Promotes f Raw ∧ d.Tolerates f := by
  constructor
  · refine .of_seed (h.parametric.context mode id) (h.coerces.context mode id)
      (fun lift hlift => ?_) hd
    have hpure : (inner.contextSeed mode id).ops .pure = some (inner.table .pure) := by
      cases mode <;> rfl
    exact Option.some.inj (hpure.symm.trans hlift) ▸ h.lifts
  · intro op hop
    obtain ⟨g, hg⟩ : ∃ g, (inner.contextSeed mode id).ops op = some g := by
      cases op with
      | bind | handle | cleanup | block | scope | iterate | forPar | run =>
        cases mode <;> exact ⟨_, rfl⟩
      | _ => exact absurd hop (by decide)
    rw [Seed.table_given hd op hg]
    exact (ht op hop).context hg

/-- A raw value comes to what `pure` of it comes to. -/
theorem answers_raw {v : Value} (hv : Raw v) :
    (upTo f).Answers true (inner.table .pure v) (pure v) := by
  refine answers_upTo_true.mpr (((h.lifts v hv).similar.bind_left _).trans (.of_eq ?_))
  cases hf : f v with
  | error e => exact congrArg Prog.done hf.symm
  | ok u =>
    have hu := h.coerces.settles v u hf
    change Prog.done (f u) = Prog.done (f v)
    rw [hu, hf]

end Promotes

/-! ## Building -/

section

variable {c : Catalog} (hRaw : ∀ v, Raw v → ∀ b inner, v ≠ .carrier b inner)

theorem Promotes.escaping (h : inner.Promotes f Raw) (escape : Bool) :
    (inner.escaping escape).Yields c fun d _ => d.Promotes f Raw := by
  cases escape with
  | false => exact .pure h
  | true =>
    have hpure : (Escape.seed inner).supplies .pure = true := by
      rw [Escape.seed]
      split <;> rfl
    exact Seed.yields_assemble hpure fun d id hd _ => h.escape hd

include hRaw

theorem Promotes.carried (h : inner.Promotes f Raw) (brand : Option Brand) :
    (inner.carried brand).Yields c fun d _ => ∃ f, d.Promotes f Raw := by
  cases brand with
  | none => exact .pure ⟨f, h⟩
  | some brand =>
    rw [Definition.carried, withCarrier]
    exact Seed.yields_assemble rfl fun d id hd _ => ⟨_, h.carrier hRaw hd⟩

/-- With coercion among them, the layers on top of what promotes do so and tolerate raw results. -/
theorem Promotes.withLayers (h : inner.Promotes f Raw) {o : Options} (ho : o.coercion = true)
    (brand : Option Brand) :
    (inner.withLayers o brand).Yields c fun d _ => ∃ f, d.Promotes f Raw ∧ d.Tolerates f := by
  rw [withLayers_eq, ho]
  refine .bind (h.carried hRaw brand) fun d₁ c₁ _ h₁ => ?_
  obtain ⟨f₁, h₁⟩ := h₁
  have hcoercing : (d₁.coercing true).Yields c₁ fun d _ => d.Promotes f₁ Raw ∧ d.Tolerates f₁ := by
    rw [coercing, withCoercion, if_pos h₁.coerces.supplies]
    exact Seed.yields_assemble rfl fun d id hd _ => h₁.coercion hd
  refine .bind hcoercing fun d₂ c₂ _ h₂ => ?_
  have hcontext : (d₂.withContext o.context).Yields c₂
      fun d _ => d.Promotes f₁ Raw ∧ d.Tolerates f₁ := by
    by_cases hmode : o.context = .off
    · rw [hmode]
      exact .pure h₂
    · rw [withContext_of_ne_off d₂ hmode]
      exact Seed.yields_assembleWith (by cases o.context <;> rfl) fun d id hd _ =>
        h₂.1.context h₂.2 hd
  refine .bind hcontext fun d c' _ hd => ?_
  cases brand with
  | none => exact .pure ⟨f₁, hd⟩
  | some brand =>
    cases o.dispatch with
    | home => exact .adopting ⟨f₁, hd⟩
    | _ => exact .pure ⟨f₁, hd⟩

end

end Definition

namespace Seed

variable {s : Seed} {f : Value → Except Fault Value} {Raw : Value → Prop}

/-- Everything that is built with coercion, from a seed whose `pure` and `coerce` do the same to raw
values, tolerates raw results. -/
theorem promotes_build (hreinstall : s.reinstall = none) (hs : s.Parametric) (hc : s.Coerces f)
    {lift : Value → Prog Value} (hlift : s.ops .pure = some lift)
    (hlifts : ∀ v, Raw v → (lift v).Alike (.done (f v)))
    (hRaw : ∀ v, Raw v → ∀ b inner, v ≠ .carrier b inner) {o : Options} (ho : o.coercion = true)
    (c : Catalog) : (s.build o).Yields c fun d _ => ∃ f, d.Promotes f Raw ∧ d.Tolerates f := by
  have hpure : s.supplies .pure = true := Option.isSome_iff_exists.mpr ⟨lift, hlift⟩
  rw [build_eq]
  refine .bind (P := fun d _ => d.Promotes f Raw) ?_ fun d₁ c₁ _ h₁ => ?_
  · refine yields_complete hreinstall hpure fun d id hd _ => .of_seed hs hc (fun g hg => ?_) hd
    exact Option.some.inj (hlift.symm.trans hg) ▸ hlifts
  · refine .bind (h₁.escaping o.escape) fun d₂ c₂ _ h₂ => ?_
    cases o.carrier with
    | none => exact h₂.withLayers hRaw ho none
    | some name => exact .withBrand fun brand => h₂.withLayers hRaw ho (some brand)

end Seed

namespace Effects

/-- The ready-made effects with a `coerce` of their own that is not the identity, and the values
that they do not take for effect values. -/
inductive Promoting : Seed → (Value → Prop) → Prop where
  | either : Promoting either fun v => v.isPlain = true
  | results : Promoting results fun v =>
      v.isList = false ∧ v.isSignal = false ∧ ∀ brand inner, v ≠ .carrier brand inner

theorem coerces_either : either.Coerces fun v => .ok (if isOutcome v then v else .ctor "Ok" v) := by
  refine ⟨⟨_, rfl, fun v => .refl _⟩, fun v u h => ?_⟩
  obtain rfl := Except.ok.inj h
  cases hv : isOutcome v with
  | true => simp [hv]
  | false => simp [isOutcome, Value.arg?]

theorem coerces_results : results.Coerces fun v => .ok (if v.isList then v else .list [v]) := by
  refine ⟨⟨_, rfl, fun v => .refl _⟩, fun v u h => ?_⟩
  obtain rfl := Except.ok.inj h
  cases hv : v.isList with
  | true => simp [hv]
  | false => simp [Value.isList]

theorem isOutcome_of_isPlain {v : Value} (h : v.isPlain = true) : isOutcome v = false := by
  cases v <;> simp_all [Value.isPlain, isOutcome, Value.arg?]

/-- What is built from a ready-made effect with coercion shows the same whether callbacks answer raw
values or `pure` of them, in any client and at any of its places. -/
theorem raw_results {s : Seed} {Raw : Value → Prop} (hs : Promoting s Raw) {o : Options}
    (ho : o.coercion = true) (c : Catalog) : ∃ d c', s.build o c = (.ok d, c') ∧
      ∀ (p : Client (fun _ => True) Raw false 0 0) (c : Catalog) (b : Nat) (w : World),
        ((p.on d.table (d.table .pure) Fin.elim0 Fin.elim0).run c b w).observed =
          ((p.on d.table Pure.pure Fin.elim0 Fin.elim0).run c b w).observed := by
  have hbuild : (s.build o).Yields c fun d _ => ∃ f, d.Promotes f Raw ∧ d.Tolerates f := by
    cases hs with
    | either =>
      refine Seed.promotes_build rfl .either coerces_either rfl (fun v hv => ?_) ?_ ho c
      · rw [isOutcome_of_isPlain hv]
        exact .refl _
      · rintro _ hv b inner rfl
        cases hv
    | results =>
      refine Seed.promotes_build rfl .results coerces_results rfl (fun v hv => ?_) ?_ ho c
      · rw [hv.1]
        exact .refl _
      · exact fun v hv => hv.2.2
  obtain ⟨d, c', hd, -, f, hpromotes, htolerates⟩ := hbuild
  refine ⟨d, c', hd, fun p c b w => Prog.Similar.observed_run ?_ c b w⟩
  refine answers_upTo_false.mp (p.answers_on (fun op => htolerates.related hpromotes.parametric)
    (fun v hv => hpromotes.answers_raw hv) (fun _ _ => rfl) (fun k => k.elim0) (fun j => j.elim0))

/-- A raw result of what is bound inside a block, under every layer. -/
theorem raw_results_either : ∃ d c',
    either.build ⟨true, some "m", true, .full, .home⟩ .empty = (.ok d, c') ∧
    ∀ (c : Catalog) (b : Nat) (w : World),
      let p : Client (fun _ => True) (fun v => v.isPlain = true) false 0 0 :=
        .block {} (.bind (.pure .unit) {} fun _ => .raw (.bool true) rfl)
      ((p.on d.table (d.table .pure) Fin.elim0 Fin.elim0).run c b w).observed =
        ((p.on d.table Pure.pure Fin.elim0 Fin.elim0).run c b w).observed := by
  obtain ⟨d, c', hd, hshows⟩ := raw_results .either
    (o := ⟨true, some "m", true, .full, .home⟩) rfl .empty
  exact ⟨d, c', hd, hshows _⟩

end Effects

end EffectLayers
