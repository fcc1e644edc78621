import EffectLayers.Effects
import EffectLayers.Proofs.Layer.Stack

/-!
# The boundary of a carrier

`reflect` and `reify` take values into the effect and out of it again. On a carrier they pack and
unpack. What is layered on the carrier derives both anew, from nothing: values stay as they are.

## Main definitions

* `Definition.Crosses`: `reflect` packs what `reify` unpacks.
* `Definition.StaysInside`: neither does anything to a value.

## Main statements

* `Seed.crosses_iff`: the layers on top of a carrier that leave its boundary where it is.
-/

namespace EffectLayers

namespace Definition

/-- `reflect` puts a value in a carrier of the brand, `reify` takes the answer of a thunk out of
one. -/
structure Crosses (d : Definition) (brand : Brand) : Prop where
  reflect : ∀ v c b w, (d.table .reflect v).run c b w = .finished (.ok (.carrier brand v)) w
  reify : ∀ (f : Action) v c b w w', f.run.run c b w = .finished (.ok (.carrier brand v)) w' →
    (d.table .reify f).run c b w = .finished (.ok v) w'

/-- `reflect` answers a value as it is, `reify` answers what its thunk does. -/
structure StaysInside (d : Definition) : Prop where
  reflect : ∀ v, d.table .reflect v = pure v
  reify : ∀ f, d.table .reify f = f.run

/-- No value is its own carrier. -/
theorem StaysInside.not_crosses {d : Definition} (h : d.StaysInside) (brand : Brand) :
    ¬ d.Crosses brand := by
  intro hcrosses
  have hrun := hcrosses.reflect .unit .empty 0 .empty
  rw [h.reflect] at hrun
  cases hrun

variable {inner d : Definition} {c c' : Catalog}

/-- Without a source of their own, `reflect` and `reify` do nothing to a value. -/
theorem staysInside_of_definition? {s : Seed} {id : DefId} (hd : s.definition? id = some d)
    (hreify : s.ops .reify = none) (hreflect : s.ops .reflect = none) : d.StaysInside := by
  obtain ⟨lift, -, rfl⟩ := Option.map_eq_some_iff.mp hd
  constructor
  · intro v
    simp only [Seed.table, hreflect, Option.getD_none]
  · intro f
    simp only [Seed.table, Seed.reify, hreify, Option.getD_none]

/-! ## One layer -/

theorem staysInside_of_withEscapeControl (h : inner.withEscapeControl c = (.ok d, c')) :
    d.StaysInside := by
  obtain ⟨i, hd⟩ := definition?_of_withEscapeControl h
  refine staysInside_of_definition? hd ?_ ?_ <;> unfold Escape.seed <;> split <;> rfl

theorem staysInside_of_withCoercion (h : inner.withCoercion c = (.ok d, c')) :
    d.StaysInside := by
  obtain ⟨i, hd⟩ := definition?_of_withCoercion h
  exact staysInside_of_definition? hd rfl rfl

theorem staysInside_of_withContext {mode : ContextMode} (hmode : mode ≠ .off)
    (h : inner.withContext mode c = (.ok d, c')) : d.StaysInside := by
  obtain ⟨i, hd⟩ := definition?_of_withContext hmode h
  cases mode with
  | off => exact absurd rfl hmode
  | runOnly | full => exact staysInside_of_definition? hd rfl rfl

/-- A carrier on top of a definition that does nothing to values is where they cross. -/
theorem crosses_of_withCarrier {brand : Brand} (hinner : inner.StaysInside)
    (h : inner.withCarrier brand c = (.ok d, c')) : d.Crosses brand := by
  obtain ⟨i, hd⟩ := definition?_of_withCarrier h
  let w := inner.packing brand
  constructor
  · intro v c b u
    rw [Seed.table_given hd .reflect rfl]
    change (w.packed (inner.table .reflect v)).run c b u = _
    rw [hinner.reflect]
    rfl
  · intro f v c b u u' hrun
    rw [Seed.table_given hd .reify rfl]
    change (w.unpacked (inner.table .reify f)).run c b u = _
    have hunpack : w.unpack (.carrier brand v) = pure v := w.unpack_pack v
    rw [hinner.reify, Packing.unpacked, Prog.run_bind, hrun]
    simp only [Outcome.bind, hunpack, Prog.run_pure]

/-! ## All layers -/

/-- The layers on top of a carrier: its boundary stays where it is if nothing is put on it. -/
theorem crosses_or_staysInside_of_withLayers {o : Options} {brand : Brand}
    (hinner : inner.StaysInside) (h : inner.withLayers o (some brand) c = (.ok d, c')) :
    d.carrierBrand? = some brand ∧
      if o.coercion = false ∧ o.context = .off then d.Crosses brand else d.StaysInside := by
  refine ⟨(wraps_of_withLayers h).1, ?_⟩
  obtain ⟨d₁, c₁, d₂, c₂, c₃, hcarried, hcoercing, hcontext, -⟩ := stages_of_withLayers h
  by_cases hmode : o.context = .off
  · rw [hmode] at hcontext
    cases hcontext
    cases hcoercion : o.coercion with
    | false =>
      rw [hcoercion] at hcoercing
      cases hcoercing
      rw [if_pos ⟨rfl, hmode⟩]
      exact crosses_of_withCarrier hinner hcarried
    | true =>
      rw [hcoercion] at hcoercing
      rw [if_neg fun hoff => Bool.noConfusion hoff.1]
      exact staysInside_of_withCoercion hcoercing
  · rw [if_neg fun hoff => hmode hoff.2]
    exact staysInside_of_withContext hmode hcontext

end Definition

namespace Seed

variable {s : Seed} {o : Options} {c c' : Catalog} {d : Definition}

theorem staysInside_of_complete (hreify : s.ops .reify = none) (hreflect : s.ops .reflect = none)
    (h : s.complete c = (.ok d, c')) : d.StaysInside := by
  obtain ⟨inner, i, c₁, c₂, hinner, hcontext⟩ := context_of_complete h
  have hstays := Definition.staysInside_of_definition? hinner hreify hreflect
  by_cases hmode : s.restoring = .off
  · rw [hmode] at hcontext
    cases hcontext
    exact hstays
  · exact Definition.staysInside_of_withContext hmode hcontext

/-- What is built with a carrier, from a seed that gives neither `reify` nor `reflect`, packs and
unpacks exactly if neither coercion nor a context is put on the carrier. Otherwise neither operation
does anything to a value. -/
theorem crosses_iff (hreify : s.ops .reify = none) (hreflect : s.ops .reflect = none)
    (ho : o.carrier ≠ none) (h : s.build o c = (.ok d, c')) :
    ∃ brand, d.carrierBrand? = some brand ∧
      (d.Crosses brand ↔ o.coercion = false ∧ o.context = .off) ∧
      (d.StaysInside ↔ ¬ (o.coercion = false ∧ o.context = .off)) := by
  rw [build_eq] at h
  obtain ⟨d₀, c₀, hcomplete, h⟩ := Assembly.bind_eq_ok.mp h
  obtain ⟨e, c₁, hescaping, h⟩ := Assembly.bind_eq_ok.mp h
  have he : e.StaysInside := by
    cases hescape : o.escape with
    | false =>
      rw [hescape] at hescaping
      cases hescaping
      exact staysInside_of_complete hreify hreflect hcomplete
    | true =>
      rw [hescape] at hescaping
      exact Definition.staysInside_of_withEscapeControl hescaping
  obtain ⟨name, hname⟩ := Option.ne_none_iff_exists'.mp ho
  simp only [hname, Assembly.withBrand] at h
  obtain ⟨hbrand, hlayers⟩ := Definition.crosses_or_staysInside_of_withLayers he h
  refine ⟨_, hbrand, ?_⟩
  split at hlayers
  case isTrue hoff =>
    exact ⟨iff_of_true hlayers hoff,
      iff_of_false (fun hstays => hstays.not_crosses _ hlayers) (not_not_intro hoff)⟩
  case isFalse hon => exact ⟨iff_of_false (hlayers.not_crosses _) hon, iff_of_true hlayers hon⟩

/-- Escape control beneath a carrier with nothing on top: the boundary is that of the carrier. -/
theorem crosses_identity : ∃ d c' brand,
    Effects.identity.build ⟨true, some "m", false, .off, .home⟩ .empty = (.ok d, c') ∧
      d.carrierBrand? = some brand ∧ d.Crosses brand := by
  obtain ⟨d, c', hbuild⟩ : ∃ d c',
      Effects.identity.build ⟨true, some "m", false, .off, .home⟩ .empty = (.ok d, c') :=
    ⟨_, _, rfl⟩
  obtain ⟨brand, hbrand, hcrosses, -⟩ := crosses_iff rfl rfl (Option.some_ne_none _) hbuild
  exact ⟨d, c', brand, hbuild, hbrand, hcrosses.mpr ⟨rfl, rfl⟩⟩

/-- With coercion and a context on a carrier, `reflect` answers `1` as it is, in no carrier. -/
theorem not_crosses_identity : ∃ d c' brand,
    Effects.identity.build ⟨true, some "m", true, .full, .home⟩ .empty = (.ok d, c') ∧
      d.carrierBrand? = some brand ∧ d.table .reflect (.int 1) = pure (.int 1) ∧
      ¬ d.Crosses brand := by
  obtain ⟨d, c', brand, hbuild, hbrand, hstays⟩ : ∃ d c' brand,
      Effects.identity.build ⟨true, some "m", true, .full, .home⟩ .empty = (.ok d, c') ∧
        d.carrierBrand? = some brand ∧ d.StaysInside :=
    ⟨_, _, _, rfl, rfl, ⟨fun _ => rfl, fun _ => rfl⟩⟩
  exact ⟨d, c', brand, hbuild, hbrand, hstays.reflect _, hstays.not_crosses brand⟩

end Seed

end EffectLayers
