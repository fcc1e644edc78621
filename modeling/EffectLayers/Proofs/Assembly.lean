import EffectLayers.Build

/-!
# Assembling definitions

Building is one stage after another, each of which puts at most one layer on top. Assembling
only adds to the catalog: what was known stays known. A step yields a property if it is not
refused and the property holds of its result in the catalog that it leaves.

## Main definitions

* `Definition.escaping`, `Definition.carried`, `Definition.coercing`, `Definition.adopting`: the
  stages that depend on an option.
* `Catalog.Grows`: a catalog knows the definitions of an earlier one.
* `Assembly.Yields`: a step is not refused, and what holds afterwards.

## Main statements

* `Seed.table_of_given`: an operation that is given is the one in the table.
* `Seed.complete_eq`, `Seed.build_eq`, `Definition.withLayers_eq`: completing and building are
  sequences of stages.
* `Seed.stages_of_complete`, `Definition.stages_of_withLayers`, `Seed.stages_of_build`: what each
  stage made if none was refused.
* `Assembly.bind_eq_ok`: a sequence that is not refused, step by step.
* `Assembly.Yields.bind`: one step after another.
* `Seed.yields_assembleWith`: a seed with `pure` is assembled.
-/

namespace EffectLayers

/-! ## Operations that are given -/

namespace Seed

/-- An operation that is given is the one in the table, whichever it is. -/
theorem table_of_given {s : Seed} {lift : Value → Prog Value} (hlift : s.ops .pure = some lift)
    {op : Operation} {f : Signature op} (h : s.ops op = some f) : s.table lift op = f := by
  cases op with
  | pure => exact Option.some.inj (hlift.symm.trans h)
  | pair => simp only [table, pair, h]
  | plus => simp only [table, plus, h]
  | empty => simp only [table, empty, h]
  | scope => simp only [table, scope, h]
  | bind => simp only [table, bind, h]
  | _ =>
    simp only [table, raise, map, join, arr, handle, cleanup, const, unshiftTo, alt, opt, block,
      iterate, forPar, seq, run, reify, h, Option.getD_some]

theorem table_of_definition? {s : Seed} {id : DefId} {d : Definition}
    (hd : s.definition? id = some d) {op : Operation} {f : Signature op} (h : s.ops op = some f) :
    d.supplies op = true ∧ d.table op = f := by
  obtain ⟨lift, hlift, rfl⟩ := Option.map_eq_some_iff.mp hd
  exact ⟨Option.isSome_iff_exists.mpr ⟨f, h⟩, table_of_given hlift h⟩

theorem supplies_given {s : Seed} {id : DefId} {d : Definition} (hd : s.definition? id = some d)
    (op : Operation) {f : Signature op} (h : s.ops op = some f) : d.supplies op = true :=
  (table_of_definition? hd h).1

theorem table_given {s : Seed} {id : DefId} {d : Definition} (hd : s.definition? id = some d)
    (op : Operation) {f : Signature op} (h : s.ops op = some f) : d.table op = f :=
  (table_of_definition? hd h).2

theorem supplies_of_definition? {s : Seed} {id : DefId} {d : Definition}
    (hd : s.definition? id = some d) (op : Operation) : d.supplies op = s.supplies op := by
  obtain ⟨lift, hlift, rfl⟩ := Option.map_eq_some_iff.mp hd
  rfl

theorem ops_eq_none {s : Seed} {op : Operation} (h : s.supplies op = false) : s.ops op = none := by
  simpa [supplies] using h

/-- What a layer keeps is what there was beneath it. -/
theorem eq_of_keeping {inner : Definition} {layer : String} {op : Operation}
    {f : Signature op} (h : (keeping inner layer).ops op = some f) : inner.table op = f := by
  have hops : (keeping inner layer).ops op =
      if op = .pure ∨ (keeps op && inner.supplies op) = true then some (inner.table op)
      else none := by
    cases op <;> simp [keeping]
  rw [hops] at h
  split at h
  · exact Option.some.inj h
  · cases h

end Seed

/-! ## Stages -/

namespace Definition

/-- Escape control, if it is asked for. -/
def escaping (d : Definition) : Bool → Assembly Definition
  | true => d.withEscapeControl
  | false => pure d

/-- A carrier, if there is a brand. -/
def carried (d : Definition) : Option Brand → Assembly Definition
  | some brand => d.withCarrier brand
  | none => pure d

/-- Coercion, if it is asked for. -/
def coercing (d : Definition) : Bool → Assembly Definition
  | true => d.withCoercion
  | false => pure d

/-- The brand is adopted, if there is one and methods are to be looked for in the definition. -/
def adopting (d : Definition) : Option Brand → Dispatch → Assembly Definition
  | some brand, .home => Assembly.adopting brand d
  | _, _ => pure d

theorem eq_of_adopting {d e : Definition} {brand : Option Brand} {dispatch : Dispatch}
    {c c' : Catalog} (h : d.adopting brand dispatch c = (.ok e, c')) : e = d := by
  cases brand <;> cases dispatch <;> cases h <;> rfl

theorem withLayers_eq (d : Definition) (o : Options) (brand : Option Brand) :
    d.withLayers o brand = d.carried brand >>= fun d => d.coercing o.coercion >>= fun d =>
      d.withContext o.context >>= fun d => d.adopting brand o.dispatch := by
  unfold withLayers
  cases brand <;> cases o.coercion <;> cases o.dispatch <;> rfl

theorem withContext_of_ne_off (d : Definition) {mode : ContextMode} (h : mode ≠ .off) :
    d.withContext mode = Seed.assembleWith (d.contextSeed mode) := by
  cases mode with
  | off => exact absurd rfl h
  | runOnly => rfl
  | full => rfl

end Definition

/-- The context that completing the seed puts back on top; off if there is none. -/
def Seed.restoring (s : Seed) : ContextMode := s.reinstall.elim .off Reinstall.mode

theorem Seed.complete_eq (s : Seed) :
    s.complete = s.assemble >>= fun d => d.withContext s.restoring >>= fun d =>
      d.adopting (s.reinstall.bind Reinstall.brand) .home := by
  unfold complete restoring
  rcases s.reinstall with _ | ⟨mode, _ | brand⟩ <;> rfl

theorem Seed.build_eq (s : Seed) (o : Options) :
    s.build o = s.complete >>= fun d => d.escaping o.escape >>= fun d =>
      match o.carrier with
      | some name => Assembly.withBrand name fun brand => d.withLayers o (some brand)
      | none => d.withLayers o none := by
  unfold build
  cases o.escape <;> rfl

/-- A step that is not refused, and the next one. -/
theorem Assembly.bind_of_ok {α β : Type 1} {m : Assembly α} (f : α → Assembly β)
    {c c₁ : Catalog} {a : α} (h : m c = (.ok a, c₁)) : (m >>= f) c = f a c₁ := by
  simp only [Bind.bind, h]

/-- A step that is refused. -/
theorem Assembly.bind_of_error {α β : Type 1} {m : Assembly α} (f : α → Assembly β)
    {c c₁ : Catalog} {e : ConfigError} (h : m c = (.error e, c₁)) :
    (m >>= f) c = (.error e, c₁) := by
  simp only [Bind.bind, h]

theorem Assembly.bind_pure_self {α : Type 1} (m : Assembly α) : m >>= pure = m := by
  funext c
  rcases h : m c with ⟨e | a, c'⟩
  · exact bind_of_error _ h
  · exact bind_of_ok _ h

theorem Assembly.bind_bind {α β γ : Type 1} (m : Assembly α) (f : α → Assembly β)
    (g : β → Assembly γ) : m >>= f >>= g = m >>= fun a => f a >>= g := by
  funext c
  rcases h : m c with ⟨e | a, c'⟩
  · rw [bind_of_error _ (bind_of_error f h), bind_of_error _ h]
  · rw [bind_of_ok _ h]
    simp only [Bind.bind, h]

instance : LawfulMonad Assembly :=
  LawfulMonad.mk' Assembly Assembly.bind_pure_self (fun _ _ => rfl) Assembly.bind_bind

/-- A sequence of two steps that is not refused. -/
theorem Assembly.bind_eq_ok {α β : Type 1} {m : Assembly α} {f : α → Assembly β} {c c' : Catalog}
    {b : β} : (m >>= f) c = (.ok b, c') ↔ ∃ a c₁, m c = (.ok a, c₁) ∧ f a c₁ = (.ok b, c') := by
  rcases h : m c with ⟨e | a, c₁⟩
  · simp [Bind.bind, h]
  · rw [bind_of_ok f h]
    constructor
    · exact fun hf => ⟨a, c₁, rfl, hf⟩
    · rintro ⟨_, _, heq, hf⟩
      cases heq
      exact hf

/-! ## What is known afterwards -/

/-- The definitions of `c` are those of `c'`. -/
def Catalog.Grows (c c' : Catalog) : Prop :=
  ∀ (i : DefId) (d : Definition), c.get? i = some d → c'.get? i = some d

/-- The definition is known by its identity. -/
def Definition.KnownIn (d : Definition) (c : Catalog) : Prop := c.get? d.id = some d

namespace Catalog.Grows

variable {c c' c'' : Catalog}

theorem refl (c : Catalog) : c.Grows c := fun _ _ h => h

theorem trans (h : c.Grows c') (h' : c'.Grows c'') : c.Grows c'' :=
  fun i d hd => h' i d (h i d hd)

theorem add (c : Catalog) (d : Definition) : c.Grows (c.add d) := by
  intro i e h
  obtain ⟨hi, he⟩ := Array.getElem?_eq_some_iff.mp h
  simpa only [Catalog.get?, Catalog.add, Array.getElem?_push_lt hi] using congrArg some he

end Catalog.Grows

theorem Definition.KnownIn.mono {d : Definition} {c c' : Catalog} (h : d.KnownIn c)
    (hg : c.Grows c') : d.KnownIn c' :=
  hg d.id d h

/-- A definition that is known is one of those that it consists of. -/
theorem Definition.mem_lineage {d : Definition} {c : Catalog} (h : d.KnownIn c) :
    d.id ∈ c.lineage d.id := by
  have hlineage : c.lineage d.id = d.lineage.map (·.1) := by
    rw [Catalog.lineage, show c.get? d.id = some d from h]
  rw [hlineage]
  cases d
  rw [lineage.eq_def]
  exact List.mem_map_of_mem List.mem_cons_self

namespace Assembly

variable {α β : Type 1} {c : Catalog}

/-- From a catalog, the step is not refused, and something holds of its result in the catalog
that it leaves. -/
def Yields (m : Assembly α) (c : Catalog) (P : α → Catalog → Prop) : Prop :=
  ∃ a c', m c = (.ok a, c') ∧ c.Grows c' ∧ P a c'

namespace Yields

variable {m : Assembly α} {f : α → Assembly β} {P : α → Catalog → Prop} {Q : β → Catalog → Prop}

theorem pure {a : α} (h : P a c) : Yields (Pure.pure a) c P := ⟨a, c, rfl, .refl c, h⟩

theorem bind (hm : Yields m c P) (hf : ∀ a c', c.Grows c' → P a c' → Yields (f a) c' Q) :
    Yields (m >>= f) c Q := by
  obtain ⟨a, c', hrun, hg, ha⟩ := hm
  obtain ⟨b, c'', hrun', hg', hb⟩ := hf a c' hg ha
  exact ⟨b, c'', (bind_of_ok f hrun).trans hrun', hg.trans hg', hb⟩

theorem mono {P' : α → Catalog → Prop} (hm : Yields m c P) (h : ∀ a c', P a c' → P' a c') :
    Yields m c P' := by
  obtain ⟨a, c', hrun, hg, ha⟩ := hm
  exact ⟨a, c', hrun, hg, h a c' ha⟩

theorem withBrand {name : String} {f : Brand → Assembly α}
    (h : ∀ brand, Yields (f brand) { c with nextBrand := c.nextBrand + 1 } P) :
    Yields (Assembly.withBrand name f) c P :=
  h ⟨c.nextBrand, name⟩

theorem adopting {brand : Brand} {d : Definition} {P : Definition → Catalog → Prop}
    (h : P d (c.adopt brand d.id)) : Yields (Assembly.adopting brand d) c P :=
  ⟨d, c.adopt brand d.id, rfl, fun _ _ h => h, h⟩

theorem readingHomes {f : (BrandId → Option DefId) → Assembly α}
    (h : ∀ home, Yields (f home) c P) : Yields (Assembly.readingHomes f) c P :=
  h c.home

end Yields

/-- The step makes a definition of which the test is true. -/
def makes (m : Assembly Definition) (c : Catalog) (test : Definition → Catalog → Bool) : Bool :=
  match m c with
  | (.ok d, c') => test d c'
  | (.error _, _) => false

theorem exists_of_makes {m : Assembly Definition} {T : Definition → Catalog → Bool}
    (h : m.makes c T = true) : ∃ d c', m c = (.ok d, c') ∧ T d c' = true := by
  unfold makes at h
  split at h
  case h_1 d c' hmakes => exact ⟨d, c', hmakes, h⟩
  case h_2 => cases h

end Assembly

namespace Seed

theorem id_of_definition? {s : Seed} {id : DefId} {d : Definition}
    (h : s.definition? id = some d) : d.id = id := by
  obtain ⟨lift, -, rfl⟩ := Option.map_eq_some_iff.mp h
  rfl

theorem assembleWith_eq_ok {s : DefId → Seed} {c c' : Catalog} {d : Definition} :
    assembleWith s c = (.ok d, c') ↔
      (s c.nextId).definition? c.nextId = some d ∧ c' = c.add d := by
  unfold assembleWith
  cases (s c.nextId).definition? c.nextId with
  | none => simp
  | some e =>
    constructor
    · intro h
      cases h
      exact ⟨rfl, rfl⟩
    · rintro ⟨h, rfl⟩
      cases h
      rfl

theorem definition?_of_assemble {s : Seed} {c c' : Catalog} {d : Definition}
    (h : s.assemble c = (.ok d, c')) : ∃ id, s.definition? id = some d :=
  ⟨_, (assembleWith_eq_ok.mp h).1⟩

/-- A seed that does not extend a context layer is completed into its definition. -/
theorem definition?_of_complete {s : Seed} {c c' : Catalog} {d : Definition}
    (hreinstall : s.reinstall = none) (h : s.complete c = (.ok d, c')) :
    ∃ i, s.definition? i = some d := by
  obtain ⟨d', c₁, hassemble, h⟩ := Assembly.bind_eq_ok.mp h
  simp only [hreinstall] at h
  cases h
  exact definition?_of_assemble hassemble

/-- What is assembled is known from then on. -/
theorem known_of_assembleWith {s : DefId → Seed} {c c' : Catalog} {d : Definition}
    (h : assembleWith s c = (.ok d, c')) : d.KnownIn c' := by
  obtain ⟨hd, rfl⟩ := assembleWith_eq_ok.mp h
  rw [Definition.KnownIn, id_of_definition? hd]
  exact c.get?_add_self d

/-- A seed with `pure` is assembled into its definition. -/
theorem yields_assembleWith {s : DefId → Seed} {c : Catalog} {P : Definition → Catalog → Prop}
    (hpure : (s c.nextId).supplies .pure = true)
    (h : ∀ d id, (s id).definition? id = some d → d.KnownIn (c.add d) → P d (c.add d)) :
    Assembly.Yields (assembleWith s) c P := by
  obtain ⟨lift, hlift⟩ := Option.isSome_iff_exists.mp hpure
  obtain ⟨d, hd⟩ : ∃ d, (s c.nextId).definition? c.nextId = some d :=
    ⟨_, congrArg (Option.map _) hlift⟩
  have hassemble : assembleWith s c = (.ok d, c.add d) := assembleWith_eq_ok.mpr ⟨hd, rfl⟩
  exact ⟨d, c.add d, hassemble, .add c d, h d c.nextId hd (known_of_assembleWith hassemble)⟩

theorem yields_assemble {s : Seed} {c : Catalog} {P : Definition → Catalog → Prop}
    (hpure : s.supplies .pure = true)
    (h : ∀ d id, s.definition? id = some d → d.KnownIn (c.add d) → P d (c.add d)) :
    Assembly.Yields s.assemble c P :=
  yields_assembleWith hpure h

/-- A seed that does not extend a context layer is completed by assembling it. -/
theorem yields_complete {s : Seed} {c : Catalog} {P : Definition → Catalog → Prop}
    (hreinstall : s.reinstall = none) (hpure : s.supplies .pure = true)
    (h : ∀ d id, s.definition? id = some d → d.KnownIn (c.add d) → P d (c.add d)) :
    Assembly.Yields s.complete c P := by
  refine .bind (yields_assemble hpure h) fun d c _ hd => ?_
  rw [hreinstall]
  exact .pure hd

end Seed

/-! ## What a layer is the definition of -/

namespace Definition

variable {inner d : Definition} {c c' : Catalog}

theorem definition?_of_withEscapeControl (h : inner.withEscapeControl c = (.ok d, c')) :
    ∃ id, (Escape.seed inner).definition? id = some d :=
  Seed.definition?_of_assemble h

/-- What escape control gives by the handlers that there are. -/
theorem table_native (hd : inner.supplies .handle = true) {id : DefId}
    (he : (Escape.seed inner).definition? id = some d) (op : Operation) {f : Signature op}
    (hf : (Escape.native inner).ops op = some f) : d.table op = f := by
  rw [Escape.seed_of_handles hd] at he
  exact Seed.table_given he op hf

/-- What escape control gives by threading signals. -/
theorem table_threaded (hd : inner.supplies .handle = false) {id : DefId}
    (he : (Escape.seed inner).definition? id = some d) (op : Operation) {f : Signature op}
    (hf : (Escape.threaded inner).ops op = some f) : d.table op = f := by
  rw [Escape.seed_of_not_handles hd] at he
  exact Seed.table_given he op hf

theorem definition?_of_withCarrier {brand : Brand} (h : inner.withCarrier brand c = (.ok d, c')) :
    ∃ id, ((inner.packing brand).seed inner).definition? id = some d :=
  Seed.definition?_of_assemble h

theorem definition?_of_withCoercion (h : inner.withCoercion c = (.ok d, c')) :
    ∃ id, (Coercion.seed inner).definition? id = some d := by
  rw [withCoercion] at h
  split at h
  · exact Seed.definition?_of_assemble h
  · cases h

theorem definition?_of_withContext {mode : ContextMode} (hmode : mode ≠ .off)
    (h : inner.withContext mode c = (.ok d, c')) :
    ∃ id, (inner.contextSeed mode id).definition? id = some d := by
  rw [withContext_of_ne_off inner hmode] at h
  exact ⟨_, (Seed.assembleWith_eq_ok.mp h).1⟩

/-- The layers from the carrier on: a carrier, coercion and a context, one on top of the other, and
what comes of them adopts the brand. -/
theorem stages_of_withLayers {o : Options} {brand : Option Brand}
    (h : inner.withLayers o brand c = (.ok d, c')) :
    ∃ d₁ c₁ d₂ c₂ c₃, inner.carried brand c = (.ok d₁, c₁) ∧
      d₁.coercing o.coercion c₁ = (.ok d₂, c₂) ∧ d₂.withContext o.context c₂ = (.ok d, c₃) ∧
      d.adopting brand o.dispatch c₃ = (.ok d, c') := by
  rw [withLayers_eq] at h
  obtain ⟨d₁, c₁, hcarried, h⟩ := Assembly.bind_eq_ok.mp h
  obtain ⟨d₂, c₂, hcoercing, h⟩ := Assembly.bind_eq_ok.mp h
  obtain ⟨e, c₃, hcontext, h⟩ := Assembly.bind_eq_ok.mp h
  obtain rfl := eq_of_adopting h
  exact ⟨d₁, c₁, d₂, c₂, c₃, hcarried, hcoercing, hcontext, h⟩

/-! ## What is built is known -/

theorem known_of_withContext {mode : ContextMode} (hinner : inner.KnownIn c)
    (h : inner.withContext mode c = (.ok d, c')) : d.KnownIn c' := by
  by_cases hmode : mode = .off
  · subst hmode
    cases h
    exact hinner
  · rw [withContext_of_ne_off inner hmode] at h
    exact Seed.known_of_assembleWith h

theorem known_of_adopting {brand : Option Brand} {dispatch : Dispatch} (hinner : inner.KnownIn c)
    (h : inner.adopting brand dispatch c = (.ok d, c')) : d.KnownIn c' := by
  cases brand <;> cases dispatch <;> cases h <;> exact hinner

theorem known_of_withLayers {o : Options} {brand : Option Brand} (hinner : inner.KnownIn c)
    (h : inner.withLayers o brand c = (.ok d, c')) : d.KnownIn c' := by
  obtain ⟨d₁, c₁, d₂, c₂, c₃, hcarried, hcoercing, hcontext, hadopting⟩ := stages_of_withLayers h
  have h₁ : d₁.KnownIn c₁ := by
    cases brand with
    | none =>
      cases hcarried
      exact hinner
    | some brand =>
      have hassemble : ((inner.packing brand).seed inner).assemble c = (.ok d₁, c₁) := hcarried
      exact Seed.known_of_assembleWith hassemble
  have h₂ : d₂.KnownIn c₂ := by
    cases hcoercion : o.coercion with
    | false =>
      rw [hcoercion] at hcoercing
      cases hcoercing
      exact h₁
    | true =>
      rw [hcoercion, coercing, withCoercion] at hcoercing
      split at hcoercing
      · exact Seed.known_of_assembleWith hcoercing
      · cases hcoercing
  exact known_of_adopting (known_of_withContext h₂ hcontext) hadopting

end Definition

namespace Seed

variable {s : Seed} {d : Definition} {c c' : Catalog}

/-- Completing assembles the seed, puts the context back that was taken off, and adopts the brand
that was. -/
theorem stages_of_complete (h : s.complete c = (.ok d, c')) :
    ∃ inner c₁ c₂, s.assemble c = (.ok inner, c₁) ∧
      inner.withContext s.restoring c₁ = (.ok d, c₂) ∧
      d.adopting (s.reinstall.bind Reinstall.brand) .home c₂ = (.ok d, c') := by
  rw [complete_eq] at h
  obtain ⟨inner, c₁, hinner, h⟩ := Assembly.bind_eq_ok.mp h
  obtain ⟨e, c₂, hcontext, h⟩ := Assembly.bind_eq_ok.mp h
  obtain rfl := Definition.eq_of_adopting h
  exact ⟨inner, c₁, c₂, hinner, hcontext, h⟩

/-- What a seed is completed into is its definition with a context put back on top. -/
theorem context_of_complete (h : s.complete c = (.ok d, c')) :
    ∃ inner id c₁ c₂, s.definition? id = some inner ∧
      inner.withContext s.restoring c₁ = (.ok d, c₂) := by
  obtain ⟨inner, c₁, c₂, hinner, hcontext, -⟩ := stages_of_complete h
  obtain ⟨id, hdefinition⟩ := definition?_of_assemble hinner
  exact ⟨inner, id, c₁, c₂, hdefinition, hcontext⟩

/-- What depends on the context that is put back, and is nothing if none is. -/
theorem bind_reinstall {α : Type} (s : Seed) {f : ContextMode → Option α} (hf : f .off = none) :
    (s.reinstall.bind fun r => f r.mode) = f s.restoring := by
  rw [restoring]
  cases s.reinstall with
  | none => exact hf.symm
  | some r => rfl

theorem known_of_complete (h : s.complete c = (.ok d, c')) : d.KnownIn c' := by
  obtain ⟨inner, c₁, c₂, hinner, hcontext, hadopting⟩ := stages_of_complete h
  exact Definition.known_of_adopting
    (Definition.known_of_withContext (known_of_assembleWith hinner) hcontext) hadopting

/-- The seed builds a definition of which the test is true. -/
def builds (s : Seed) (o : Options) (c : Catalog) (test : Definition → Catalog → Bool) : Bool :=
  match s.build o c with
  | (.ok d, c') => test d c'
  | (.error _, _) => false

theorem exists_of_builds {o : Options} {T : Definition → Catalog → Bool}
    (h : s.builds o c T = true) : ∃ d c', s.build o c = (.ok d, c') ∧ T d c' = true :=
  Assembly.exists_of_makes h

/-- Building completes the seed, adds escape control if it is asked for, and then the layers from
the carrier on. -/
theorem stages_of_build {o : Options} (h : s.build o c = (.ok d, c')) :
    ∃ d₀ c₀ e c₁ brand c₂, s.complete c = (.ok d₀, c₀) ∧ d₀.escaping o.escape c₀ = (.ok e, c₁) ∧
      brand = o.carrier.map (⟨c₁.nextBrand, ·⟩) ∧ e.withLayers o brand c₂ = (.ok d, c') := by
  rw [build_eq] at h
  obtain ⟨d₀, c₀, hcomplete, h⟩ := Assembly.bind_eq_ok.mp h
  obtain ⟨e, c₁, hescaping, h⟩ := Assembly.bind_eq_ok.mp h
  cases hcarrier : o.carrier with
  | none =>
    simp only [hcarrier] at h
    exact ⟨d₀, c₀, e, c₁, none, c₁, hcomplete, hescaping, rfl, h⟩
  | some name =>
    simp only [hcarrier, Assembly.withBrand] at h
    exact ⟨d₀, c₀, e, c₁, some _, _, hcomplete, hescaping, rfl, h⟩

/-- What is built is known from then on. -/
theorem known_of_build {o : Options} (h : s.build o c = (.ok d, c')) : d.KnownIn c' := by
  rw [build_eq] at h
  obtain ⟨d₀, c₀, hcomplete, h⟩ := Assembly.bind_eq_ok.mp h
  obtain ⟨e, c₁, hescaping, h⟩ := Assembly.bind_eq_ok.mp h
  have he : e.KnownIn c₁ := by
    cases hescape : o.escape with
    | false =>
      rw [hescape] at hescaping
      cases hescaping
      exact known_of_complete hcomplete
    | true =>
      rw [hescape] at hescaping
      have hassemble : (Escape.seed d₀).assemble c₀ = (.ok e, c₁) := hescaping
      exact known_of_assembleWith hassemble
  cases hcarrier : o.carrier with
  | none =>
    simp only [hcarrier] at h
    exact Definition.known_of_withLayers he h
  | some name =>
    simp only [hcarrier, Assembly.withBrand] at h
    exact Definition.known_of_withLayers (c := { c₁ with nextBrand := c₁.nextBrand + 1 }) he h

end Seed

end EffectLayers
