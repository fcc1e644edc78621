import EffectLayers.Effects
import EffectLayers.Proofs.Layer.Loops
import EffectLayers.Proofs.Layer.Runs

/-!
# Packing and coercing project onto a brand

On a stack with a carrier, `pack` and `unpack` are inverse to each other on the carriers of the
brand, and `coerce` is a projection onto them. Both are those of the carrier layer: whatever is on
top of it keeps them, and what is beneath it decides only what is coerced into which inner value.

## Main definitions

* `Value.CarriedBy`: being a carrier of a brand.
* `Definition.Packs`: `pack` and `unpack` are inverse to each other.
* `Definition.CoercesOnto`: `coerce` is a projection, and `unpack` goes through it.

## Main statements

* `Seed.projects_of_build`: every stack with a carrier packs, and coerces if its seed does.
-/

namespace EffectLayers

/-- The value is a carrier of the brand. -/
def Value.CarriedBy (brand : Brand) (v : Value) : Prop :=
  ∃ found x, v = .carrier found x ∧ found.same brand = true

namespace Definition

/-- Every value, whether in a carrier or not, is unpacked into what was packed, and every carrier of
the brand is packed again into one that is equal to it. -/
structure Packs (d : Definition) (brand : Brand) : Prop where
  unpack_pack : ∀ v, (d.table .pack v >>= d.table .unpack) = pure v
  pack_unpack : ∀ found x, found.same brand = true →
    (d.table .unpack (.carrier found x) >>= d.table .pack) = pure (.carrier brand x) ∧
      (Value.carrier brand x == .carrier found x) = true

/-- Nothing but carriers of the brand is the result of `coerce`, which leaves them as they are, and
whatever is unpacked may as well be coerced first. -/
structure CoercesOnto (d : Definition) (brand : Brand) : Prop where
  carried : ∀ v c b w u w',
    (d.table .coerce v).run c b w = .finished (.ok u) w' → u.CarriedBy brand
  idempotent : ∀ v, (d.table .coerce v >>= d.table .coerce) = d.table .coerce v
  unpack_coerce : ∀ v, (d.table .coerce v >>= d.table .unpack) = d.table .unpack v

end Definition

/-! ## One carrier -/

namespace Packing

variable (w : Packing)

theorem pack_unpack {found : Brand} (hfound : found.same w.brand = true) (x : Value) :
    (w.unpack (.carrier found x) >>= fun v => pure (w.pack v)) =
      pure (.carrier w.brand x) := by
  have hinner : w.inner? (.carrier found x) = some x := by simp only [inner?, hfound, if_true]
  simp only [unpack, hinner]
  rfl

/-- What has an inner value is a carrier of the brand. -/
theorem carriedBy_of_inner? {v x : Value} (h : w.inner? v = some x) : v.CarriedBy w.brand := by
  cases v with
  | carrier found y =>
    by_cases hfound : found.same w.brand = true
    · exact ⟨found, y, rfl, hfound⟩
    · simp only [inner?, hfound] at h
      cases h
  | _ => cases h

variable (promote : Value → Prog Value)

/-- A value that is no carrier of the brand is coerced into one by way of `promote`. -/
theorem coerce_cases (v : Value) :
    v.CarriedBy w.brand ∧ w.coerce promote v = pure v ∨
      w.inner? v = none ∧ w.coerce promote v = w.packed (promote v) := by
  cases hinner : w.inner? v with
  | some x => exact .inl ⟨w.carriedBy_of_inner? hinner, by simp only [coerce, hinner]⟩
  | none => exact .inr ⟨rfl, by simp only [coerce, hinner, packed]⟩

theorem carriedBy_of_coerce {v u : Value} {c : Catalog} {b : Nat} {u₀ u₁ : World}
    (h : (w.coerce promote v).run c b u₀ = .finished (.ok u) u₁) : u.CarriedBy w.brand := by
  obtain ⟨hcarried, hcoerce⟩ | ⟨-, hcoerce⟩ := w.coerce_cases promote v
  · rw [hcoerce] at h
    cases h
    exact hcarried
  · rw [hcoerce, packed, Prog.run_bind] at h
    rcases hrun : (promote v).run c b u₀ with halt | ⟨e | x, u₂⟩
    · rw [hrun] at h
      cases h
    · rw [hrun] at h
      cases h
    · rw [hrun] at h
      cases h
      exact ⟨w.brand, x, rfl, w.brand.same_self⟩

theorem coerce_coerce (v : Value) :
    (w.coerce promote v >>= w.coerce promote) = w.coerce promote v := by
  obtain ⟨-, hcoerce⟩ | ⟨-, hcoerce⟩ := w.coerce_cases promote v
  · rw [hcoerce, pure_bind, hcoerce]
  · simp only [hcoerce, packed, bind_assoc, pure_bind, coerce_pack]

theorem unpack_coerce (hw : w.coercion = some promote) (v : Value) :
    (w.coerce promote v >>= w.unpack) = w.unpack v := by
  obtain ⟨-, hcoerce⟩ | ⟨hinner, hcoerce⟩ := w.coerce_cases promote v
  · rw [hcoerce, pure_bind]
  · have hunpack : w.unpack v = promote v := by simp only [unpack, hinner, hw]
    simp only [hcoerce, packed, bind_assoc, pure_bind, unpack_pack, bind_pure, hunpack]

end Packing

/-! ## All layers -/

namespace Definition

variable {inner d : Definition} {id : DefId} {c c' : Catalog}

theorem packs_of_carrier {w : Packing} (hd : (w.seed inner).definition? id = some d) :
    d.Packs w.brand := by
  have hpack : d.table .pack = fun v => pure (w.pack v) := Seed.table_given hd .pack rfl
  have hunpack : d.table .unpack = w.unpack := Seed.table_given hd .unpack rfl
  constructor
  case unpack_pack =>
    intro v
    simp only [hpack, hunpack, pure_bind, Packing.unpack_pack]
  case pack_unpack =>
    intro found x hfound
    rw [hpack, hunpack, w.pack_unpack hfound]
    refine ⟨rfl, ?_⟩
    have hsame : w.brand.same found = true := beq_iff_eq.mpr (beq_iff_eq.mp hfound).symm
    change (w.brand.same found && Value.eq x x) = true
    rw [hsame, Value.eq_self]
    rfl

theorem coercesOnto_of_carrier {w : Packing} {promote : Value → Prog Value}
    (hw : w.coercion = some promote) (hd : (w.seed inner).definition? id = some d) :
    d.CoercesOnto w.brand := by
  have hcoerce : d.table .coerce = w.coerce promote :=
    Seed.table_given hd .coerce (congrArg (Option.map w.coerce) hw)
  have hunpack : d.table .unpack = w.unpack := Seed.table_given hd .unpack rfl
  constructor
  case carried =>
    intro v c b u₀ u u₁ hrun
    rw [hcoerce] at hrun
    exact w.carriedBy_of_coerce promote hrun
  case idempotent =>
    intro v
    rw [hcoerce, w.coerce_coerce]
  case unpack_coerce =>
    intro v
    rw [hcoerce, hunpack, w.unpack_coerce promote hw]

/-- What keeps `pack` and `unpack` packs as before. -/
theorem Packs.of_keeps {brand : Brand} (h : inner.Packs brand) (hd : d.Keeps inner)
    (hpack : inner.supplies .pack = true) (hunpack : inner.supplies .unpack = true) :
    d.Packs brand := by
  obtain ⟨-, htable⟩ := hd .pack rfl hpack
  obtain ⟨-, htable'⟩ := hd .unpack rfl hunpack
  constructor
  case unpack_pack =>
    rw [htable, htable']
    exact h.unpack_pack
  case pack_unpack =>
    rw [htable, htable']
    exact h.pack_unpack

/-- What keeps `coerce` and `unpack` coerces as before. -/
theorem CoercesOnto.of_keeps {brand : Brand} (h : inner.CoercesOnto brand) (hd : d.Keeps inner)
    (hcoerce : inner.supplies .coerce = true) (hunpack : inner.supplies .unpack = true) :
    d.CoercesOnto brand := by
  obtain ⟨-, htable⟩ := hd .coerce rfl hcoerce
  obtain ⟨-, htable'⟩ := hd .unpack rfl hunpack
  constructor
  case carried =>
    rw [htable]
    exact h.carried
  case idempotent =>
    rw [htable]
    exact h.idempotent
  case unpack_coerce =>
    rw [htable, htable']
    exact h.unpack_coerce

/-- A carrier and whatever is put on top of it. -/
theorem projects_of_withLayers {o : Options} {brand : Brand}
    (h : inner.withLayers o (some brand) c = (.ok d, c')) :
    d.Packs brand ∧ (inner.supplies .coerce = true → d.CoercesOnto brand) := by
  obtain ⟨d₁, c₁, d₂, c₂, c₃, hcarried, hcoercing, hcontext, -⟩ := stages_of_withLayers h
  have hkeeps : d.Keeps d₁ := (keeps_of_withContext hcontext).trans (keeps_of_coercing hcoercing)
  have hunpack : d₁.supplies .unpack = true := supplies_unpack_of_carried hcarried
  obtain ⟨i, hd₁⟩ := definition?_of_withCarrier hcarried
  refine ⟨(packs_of_carrier hd₁).of_keeps hkeeps (supplies_pack_of_carried hcarried) hunpack,
    fun hinner => ?_⟩
  have hcoercion : (inner.packing brand).coercion = some (inner.table .coerce) := by
    simp only [packing, hinner, if_true]
  have hcoerce : d₁.supplies .coerce = true :=
    Seed.supplies_given hd₁ .coerce (congrArg (Option.map _) hcoercion)
  exact (coercesOnto_of_carrier hcoercion hd₁).of_keeps hkeeps hcoerce hunpack

end Definition

namespace Seed

variable {s : Seed} {o : Options} {c c' : Catalog} {d : Definition}

/-- A seed with `coerce` is completed into a definition with `coerce`, whatever is put back on
top. -/
theorem supplies_coerce_of_complete (hs : s.supplies .coerce = true)
    (h : s.complete c = (.ok d, c')) : d.supplies .coerce = true := by
  obtain ⟨inner, i, c₁, c₂, hinner, hcontext⟩ := context_of_complete h
  have hsupplies : inner.supplies .coerce = true :=
    (supplies_of_definition? hinner .coerce).trans hs
  exact (Definition.keeps_of_withContext hcontext .coerce rfl hsupplies).1

theorem supplies_coerce_of_escaping {inner : Definition} {escape : Bool}
    (hinner : inner.supplies .coerce = true) (h : inner.escaping escape c = (.ok d, c')) :
    d.supplies .coerce = true := by
  cases escape with
  | false =>
    cases h
    exact hinner
  | true =>
    obtain ⟨i, hd⟩ := Definition.definition?_of_withEscapeControl h
    refine (Definition.kept_of_definition? "escape" .coerce hd rfl ?_).1.trans hinner
    unfold Escape.seed
    split <;> rfl

/-- Whatever is built with a carrier has a brand, and `pack` and `unpack` are inverse to each other
on it. If the seed gives a `coerce`, that of what was built is a projection onto the carriers of the
brand, and whatever is unpacked may as well be coerced first. -/
theorem projects_of_build (ho : o.carrier ≠ none) (h : s.build o c = (.ok d, c')) :
    ∃ brand, d.carrierBrand? = some brand ∧ d.Packs brand ∧
      (s.supplies .coerce = true → d.CoercesOnto brand) := by
  obtain ⟨d₀, c₀, e, c₁, brand, c₂, hcomplete, hescaping, hbrand, h⟩ := stages_of_build h
  obtain ⟨name, hname⟩ := Option.ne_none_iff_exists'.mp ho
  rw [hname] at hbrand
  subst hbrand
  obtain ⟨hpacks, hcoerces⟩ := Definition.projects_of_withLayers h
  refine ⟨_, (Definition.wraps_of_withLayers h).1, hpacks, fun hs => hcoerces ?_⟩
  exact supplies_coerce_of_escaping (supplies_coerce_of_complete hs hcomplete) hescaping

/-- Boxes with a `coerce` that leaves a box as it is and faults on anything else, under all
layers. -/
theorem projects_boxed : ∃ d c' brand,
    (Effects.boxed.set .coerce fun v => do let _ ← Effects.unbox v; return v).build
      ⟨true, some "m", true, .full, .home⟩ .empty = (.ok d, c') ∧
    d.carrierBrand? = some brand ∧ d.Packs brand ∧ d.CoercesOnto brand := by
  obtain ⟨d, c', hbuild⟩ : ∃ d c',
      (Effects.boxed.set .coerce fun v => do let _ ← Effects.unbox v; return v).build
        ⟨true, some "m", true, .full, .home⟩ .empty = (.ok d, c') :=
    ⟨_, _, rfl⟩
  obtain ⟨brand, hbrand, hpacks, hcoerces⟩ := projects_of_build (Option.some_ne_none _) hbuild
  exact ⟨d, c', brand, hbuild, hbrand, hpacks, hcoerces rfl⟩

end Seed

end EffectLayers
