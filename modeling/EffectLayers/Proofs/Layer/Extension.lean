import EffectLayers.Proofs.Layer.Override

/-!
# Extending context layers

A definition with a context layer is extended beneath it, and the layer is put back on top. Where
there is one context layer, extending it is the same as extending what it is on and putting the
layer on top of that. Where there are several, the seed remembers only the outermost of them: the
others are lost.

## Main definitions

* `Override`, `Seed.overriding`: replacements for operations, and the seed with them.
* `Definition.contexts`: the modes of the context layers of a definition, level by level.
* `Definition.adopted?`: the brand that has a definition as its home.

## Main statements

* `Seed.table_congr`: what operations are derived from.
* `Definition.extend_eq`: a seed that extends context layers.
* `Definition.extend_context_iff`: when extending and putting a context layer on top commute.
-/

namespace EffectLayers

/-- A replacement for an operation. -/
abbrev Override := (op : Operation) × Signature op

/-- Whether an operation that is derived may fault with the name of its definition. -/
def Operation.titled : Operation → Bool
  | raise | handle | cleanup | alt | plus | empty | opt | block | scope => true
  | _ => false

namespace Seed

/-- The seed with replacements, of which the later ones count. -/
def overriding (s : Seed) (overrides : List Override) : Seed :=
  overrides.foldl (fun s o => s.set o.1 o.2) s

variable {s : Seed}

theorem overriding_reinstall (r : Option Reinstall) (overrides : List Override) :
    { s with reinstall := r }.overriding overrides =
      { s.overriding overrides with reinstall := r } := by
  induction overrides generalizing s with
  | nil => rfl
  | cons o overrides ih => exact ih (s := s.set o.1 o.2)

/-- Replacements change nothing but operations, and take none away. -/
structure Overrides (t s : Seed) : Prop where
  context : t.context = s.context
  base : t.base = s.base
  reinstall : t.reinstall = s.reinstall
  supplies : ∀ op, s.supplies op = true → t.supplies op = true

theorem overrides_overriding (s : Seed) (overrides : List Override) :
    (s.overriding overrides).Overrides s := by
  induction overrides generalizing s with
  | nil => exact ⟨rfl, rfl, rfl, fun _ h => h⟩
  | cons o overrides ih =>
    obtain ⟨hcontext, hbase, hreinstall, hsupplies⟩ := ih (s.set o.1 o.2)
    refine ⟨hcontext, hbase, hreinstall, fun op hop => hsupplies op ?_⟩
    by_cases h : op = o.1
    · subst h
      exact supplies_set_self s o.1 o.2
    · rwa [supplies, ops_set_of_ne s o.2 h]

theorem name_overriding (s : Seed) (overrides : List Override) :
    (s.overriding overrides).name = s.name := by
  induction overrides generalizing s with
  | nil => rfl
  | cons o overrides ih => exact ih (s.set o.1 o.2)

theorem brand_overriding (s : Seed) (overrides : List Override) :
    (s.overriding overrides).brand = s.brand := by
  induction overrides generalizing s with
  | nil => rfl
  | cons o overrides ih => exact ih (s.set o.1 o.2)

variable {c c₁ : Catalog} {d e : Definition}

/-! ## What operations are derived from -/

section

variable {t : Seed} (h : s.ops = t.ops) (lift : Value → Prog Value)

include h

theorem bind_congr : s.bind = t.bind := by
  unfold bind
  rw [h]

theorem map_congr : s.map lift = t.map lift := by
  unfold map
  rw [h, bind_congr h]

theorem pair_congr : s.pair lift = t.pair lift := by
  unfold pair
  rw [h, bind_congr h, map_congr h]

omit h in
theorem collect_cons (head second third : Value) (rest : List Value) :
    s.collect lift (head :: second :: third :: rest) = (do
      let tail ← s.collect lift (second :: third :: rest)
      s.map lift (← s.pair lift head tail) { code := consParts }) :=
  rfl

theorem collect_congr (items : List Value) : s.collect lift items = t.collect lift items := by
  induction items with
  | nil => rfl
  | cons head rest ih =>
    match rest with
    | [] | [_] => simp only [collect, map_congr h, pair_congr h]
    | second :: third :: rest =>
      rw [collect_cons, collect_cons, ih, map_congr h, pair_congr h]

theorem arr_congr : s.arr lift = t.arr lift := by
  simp only [arr, h, collect_congr h]

theorem const_congr : s.const lift = t.const lift := by
  unfold const
  rw [h, map_congr h]

theorem cleanup_congr (hraise : s.raise = t.raise) (hhandle : s.handle = t.handle) :
    s.cleanup lift = t.cleanup lift := by
  unfold cleanup
  rw [h, bind_congr h, const_congr h, hraise, hhandle]

omit h in
theorem sum_congr (hplus : s.plus = t.plus) (acc : Value) (items : List Value) :
    s.sum acc items = t.sum acc items := by
  induction items generalizing acc with
  | nil => rfl
  | cons v rest ih => simp only [sum, ih, hplus]

theorem alt_congr (hplus : s.plus = t.plus) (hempty : s.empty = t.empty) : s.alt = t.alt := by
  unfold alt
  rw [h]
  congr
  funext items
  cases items with
  | nil => exact hempty
  | cons first rest => exact sum_congr hplus first rest

/-- Operations that never name the definition of the seed depend on what is given alone. -/
theorem table_congr_of_untitled {op : Operation} (hop : op.titled = false) :
    s.table lift op = t.table lift op := by
  cases op with
  | pure => rfl
  | bind => exact bind_congr h
  | map => exact map_congr h lift
  | pair => exact pair_congr h lift
  | arr => exact arr_congr h lift
  | const => exact const_congr h lift
  | raise | handle | cleanup | alt | plus | empty | opt | block | scope => cases hop
  | _ =>
    simp only [table, join, unshiftTo, iterate, forPar, seq, run, reify, h, bind_congr h,
      map_congr h]

/-- The operations depend on what is given and on the name of the definition. -/
theorem table_congr (htitle : s.title = t.title) : s.table lift = t.table lift := by
  have hplus : s.plus = t.plus := by
    unfold plus
    rw [h, htitle]
  have hempty : s.empty = t.empty := by
    unfold empty
    rw [h, htitle]
  have hraise : s.raise = t.raise := by
    unfold raise
    rw [h, htitle]
  have hhandle : s.handle = t.handle := by
    unfold handle
    rw [h, htitle]
  funext op
  cases op with
  | raise => exact hraise
  | handle => exact hhandle
  | cleanup => exact cleanup_congr h lift hraise hhandle
  | alt => exact alt_congr h hplus hempty
  | plus => exact hplus
  | empty => exact hempty
  | opt => simp only [table, opt, h, hplus]
  | block | scope => simp only [table, block, scope, h, htitle]
  | _ => exact table_congr_of_untitled h lift rfl

end

/-! ## What is put back on top -/

/-- No operation depends on what is to be put back on top. -/
theorem table_reinstall (s : Seed) (r : Option Reinstall) (lift : Value → Prog Value) :
    { s with reinstall := r }.table lift = s.table lift :=
  table_congr (s := { s with reinstall := r }) (t := s) rfl lift rfl

theorem assemble_reinstall (s : Seed) (r : Option Reinstall) :
    { s with reinstall := r }.assemble = s.assemble := by
  unfold assemble assembleWith definition?
  simp only [table_reinstall]
  rfl

/-- What is to be put back on top matters only once the definition is assembled. -/
theorem complete_reinstall {mode : ContextMode} {brand : Option Brand} (hs : s.reinstall = none)
    (hcomplete : s.complete c = (.ok d, c₁)) :
    { s with reinstall := some ⟨mode, brand⟩ }.complete c =
      (d.withContext mode >>= fun e => match brand with
        | none => pure e
        | some brand => Assembly.adopting brand e) c₁ := by
  obtain ⟨e, c₂, hassemble, h⟩ := Assembly.bind_eq_ok.mp hcomplete
  rw [hs] at h
  cases h
  rw [← assemble_reinstall s (some ⟨mode, brand⟩)] at hassemble
  exact Assembly.bind_of_ok _ hassemble

end Seed

namespace Definition

/-! ## Levels -/

/-- The modes of the context layers of a definition and of those beneath it, level by level. -/
def contexts : Definition → List (Option ContextMode)
  | ⟨_, _, base, context, _, _, _⟩ =>
    context :: match base with
      | some d => d.contexts
      | none => []

/-- The brand of the nearest carrier layer, if the definition is its home. -/
def adopted? (home : BrandId → Option DefId) (d : Definition) : Option Brand :=
  d.carrierBrand?.filter fun b => home b.id == some d.id

variable {b d e inner : Definition} {id : DefId} {mode : ContextMode} {c c₁ : Catalog}

theorem contexts_of_definition? {s : Seed} (hd : s.definition? id = some d)
    (hbase : s.base = some inner) : d.contexts = s.context :: inner.contexts := by
  obtain ⟨lift, -, rfl⟩ := Option.map_eq_some_iff.mp hd
  rw [contexts.eq_def, hbase]

/-- A context layer can be put on top of every definition. -/
theorem yields_context (mode : ContextMode) (hmode : mode ≠ .off) (inner : Definition)
    (c : Catalog) :
    (inner.withContext mode).Yields c fun d _ => d.contexts = some mode :: inner.contexts := by
  rw [withContext_of_ne_off inner hmode]
  exact Seed.yields_assembleWith (supplies_pure_contextSeed _ _ _) fun d id hd _ =>
    contexts_of_definition? hd rfl

theorem Grounded.context_beneath : (d : Definition) → d.Grounded → d.beneath.context = none
  | ⟨_, _, some base, some _, _, _, _⟩, h => by
    rw [Grounded.eq_def] at h
    exact Grounded.context_beneath base h.2.2
  | ⟨_, _, none, some _, _, _, _⟩, h => by
    rw [Grounded.eq_def] at h
    cases h.2.2
  | ⟨_, _, some _, none, _, _, _⟩, _ => rfl
  | ⟨_, _, none, none, _, _, _⟩, _ => rfl

theorem beneath_of_context_eq_none : (d : Definition) → d.context = none → d.beneath = d
  | ⟨_, _, some _, none, _, _, _⟩, _ => rfl
  | ⟨_, _, none, none, _, _, _⟩, _ => rfl

theorem beneath_of_base : (d : Definition) → d.base = some b → d.context = some mode →
    d.beneath = b.beneath
  | ⟨_, _, some _, some _, _, _, _⟩, rfl, rfl => rfl

theorem Grounded.base : (d : Definition) → d.Grounded → d.base = some b → b.Grounded
  | ⟨_, _, some _, _, _, _, _⟩, h, rfl => by
    rw [Grounded.eq_def] at h
    exact h.2.2

/-! ## The seed of an extension -/

variable (home : BrandId → Option DefId) (layer : String)

/-- A definition with context layers is extended beneath all of them. What is put back on top is
the outermost one alone. -/
theorem extend_eq : (d : Definition) → {mode : ContextMode} → d.Grounded →
    d.context = some mode → d.extend home layer =
      { d.beneath.extend home layer with reinstall := some ⟨mode, d.adopted? home⟩ }
  | ⟨_, _, some base, some _, _, _, _⟩, _, hd, rfl => by
    rw [Grounded.eq_def] at hd
    rw [extend, beneath]
    cases hbase : base.context with
    | none => rw [beneath_of_context_eq_none base hbase]; rfl
    | some inner => rw [extend_eq base hd.2.2 hbase]; rfl
  | ⟨_, _, none, some _, _, _, _⟩, _, hd, rfl => by
    rw [Grounded.eq_def] at hd
    cases hd.2.2

theorem contexts_beneath (hd : d.Grounded) {overrides : List Override} {e : Definition}
    (he : ((d.beneath.extend home layer).overriding overrides).definition? id = some e) :
    e.contexts = none :: d.beneath.contexts := by
  have hext := extends_extend home layer _ (hd.beneath d)
  have hover := Seed.overrides_overriding (d.beneath.extend home layer) overrides
  have hbase : ((d.beneath.extend home layer).overriding overrides).base = some d.beneath := by
    rw [hover.base, hext.base, beneath_of_context_eq_none _ (hd.context_beneath d)]
  rw [contexts_of_definition? he hbase, hover.context, hext.context]

/-- What is beneath the context layers is extended by assembling the seed. -/
theorem complete_beneath (hd : d.Grounded) (overrides : List Override) (c : Catalog) :
    ((d.beneath.extend home layer).overriding overrides).reinstall = none ∧
      ((d.beneath.extend home layer).overriding overrides).complete.Yields c fun e _ =>
        e.contexts = none :: d.beneath.contexts := by
  have hext := extends_extend home layer _ (hd.beneath d)
  have hover := Seed.overrides_overriding (d.beneath.extend home layer) overrides
  have hreinstall : ((d.beneath.extend home layer).overriding overrides).reinstall = none := by
    rw [hover.reinstall]
    exact Option.map_eq_none_iff.mp (hext.reinstall.trans (hd.context_beneath d))
  have hpure : ((d.beneath.extend home layer).overriding overrides).supplies .pure = true := by
    refine hover.supplies .pure ?_
    have hgiven := (hd.beneath d).supplies_pure
    rw [Seed.supplies, hext.ops, beneath_of_context_eq_none _ (hd.context_beneath d), if_pos hgiven]
    rfl
  exact ⟨hreinstall, Seed.yields_complete hreinstall hpure fun e id he _ =>
    contexts_beneath home layer hd he⟩

/-- Extending a definition with context layers is putting its outermost context on top of the
extension of what is beneath them all. The result adopts the brand of which the definition was the
home. -/
theorem complete_extend (hd : d.Grounded) (hcontext : d.context = some mode)
    (overrides : List Override) (c : Catalog) :
    ∃ e c₁, (((d.beneath.extend home layer).overriding overrides).complete >>=
        (·.withContext mode)) c = (.ok e, c₁) ∧
      ((d.extend home layer).overriding overrides).complete c =
        (.ok e, (d.adopted? home).elim c₁ fun brand => c₁.adopt brand e.id) ∧
      e.contexts = some mode :: none :: d.beneath.contexts := by
  obtain ⟨hreinstall, e₀, c₀, hcomplete, -, hcontexts⟩ := complete_beneath home layer hd overrides c
  obtain ⟨e, c₁, hput, -, htop⟩ := yields_context mode
    (fun h => hd.context_ne_off (h ▸ hcontext)) e₀ c₀
  refine ⟨e, c₁, (Assembly.bind_of_ok _ hcomplete).trans hput, ?_, ?_⟩
  · rw [extend_eq home layer d hd hcontext, Seed.overriding_reinstall,
      Seed.complete_reinstall hreinstall hcomplete, Assembly.bind_of_ok _ hput]
    cases d.adopted? home <;> rfl
  · rw [htop, hcontexts]

/-- A context layer on top of `b` is extended, and what was put on top of the extension of `b` is
compared with it. Both succeed, and both have the context layer on top. They are the same
definition exactly if `b` has no context layer on top itself, which the first one lacks. The result
becomes the home of the brand of which the definition was the home. -/
theorem extend_context_iff (hd : d.Made) (hbase : d.base = some b)
    (hcontext : d.context = some mode) (home : BrandId → Option DefId) (layer : String)
    (overrides : List Override) (c : Catalog) :
    ∃ e c₁ e' c₂,
      ((d.extend home layer).overriding overrides).complete c = (.ok e, c₁) ∧
      (((b.extend home layer).overriding overrides).complete >>= (·.withContext mode)) c =
        (.ok e', c₂) ∧
      (e = e' ↔ b.context = none) ∧
      e.contexts = some mode :: none :: d.beneath.contexts ∧
      e'.contexts = some mode :: (b.context.toList.map some ++ none :: d.beneath.contexts) ∧
      ∀ brand, d.carrierBrand? = some brand → home brand.id = some d.id →
        c₁.home brand.id = some e.id := by
  have hgrounded := hd.grounded
  have hb : b.Grounded := hgrounded.base d hbase
  have hbeneath : d.beneath = b.beneath := beneath_of_base d hbase hcontext
  obtain ⟨e, c₁, hput, hextend, htop⟩ :=
    complete_extend home layer hgrounded hcontext overrides c
  have hhome (brand : Brand) (hbrand : d.carrierBrand? = some brand)
      (hof : home brand.id = some d.id) :
      ((d.adopted? home).elim c₁ fun brand => c₁.adopt brand e.id).home brand.id = some e.id := by
    have hadopted : d.adopted? home = some brand := by simp [adopted?, hbrand, hof]
    rw [hadopted]
    exact Catalog.home_adopt_self c₁ brand e.id
  cases hbcontext : b.context with
  | none =>
    rw [hbeneath, beneath_of_context_eq_none b hbcontext] at hput
    exact ⟨e, _, e, c₁, hextend, hput, ⟨fun _ => rfl, fun _ => rfl⟩, htop, htop, hhome⟩
  | some inner =>
    obtain ⟨e₁, c₂, -, hextend', htop'⟩ :=
      complete_extend home layer hb hbcontext overrides c
    obtain ⟨e', c₃, hput', -, hcontexts⟩ := yields_context mode
      (fun h => hgrounded.context_ne_off (h ▸ hcontext)) e₁
      ((b.adopted? home).elim c₂ fun brand => c₂.adopt brand e₁.id)
    rw [htop', ← hbeneath] at hcontexts
    refine ⟨e, _, e', _, hextend, (Assembly.bind_of_ok _ hextend').trans hput',
      ⟨fun h => ?_, nofun⟩, htop, hcontexts, hhome⟩
    -- One level more on one side than on the other.
    have hlength := congrArg List.length (htop.symm.trans ((congrArg contexts h).trans hcontexts))
    simp at hlength

/-- A definition with every layer that the standard options ask for and a carrier is extended: the
extension is the context on top of the extended coercion layer, and the home of the brand. -/
theorem extend_context_carried :
    ∃ d b c₀ e c₁ c₂ brand,
      Effects.identity.build { Options.standard with carrier := some "m" } .empty = (.ok d, c₀) ∧
      d.base = some b ∧ b.context = none ∧
      ((d.extend c₀.home "x").overriding []).complete c₀ = (.ok e, c₁) ∧
      (((b.extend c₀.home "x").overriding []).complete >>= (·.withContext .full)) c₀ = (.ok e, c₂) ∧
      d.carrierBrand? = some brand ∧ c₁.home brand.id = some e.id := by
  obtain ⟨d, b, brand, c₀, hbuild, hbase, hcontext, hb, hbrand, hof⟩ : ∃ d b brand c₀,
      Effects.identity.build { Options.standard with carrier := some "m" } .empty = (.ok d, c₀) ∧
        d.base = some b ∧ d.context = some .full ∧ b.context = none ∧
        d.carrierBrand? = some brand ∧ c₀.home brand.id = some d.id :=
    ⟨_, _, _, _, rfl, rfl, rfl, rfl, rfl, rfl⟩
  have hd : d.Made := (Seed.Made.plain _ _).build hbuild
  obtain ⟨e, c₁, e', c₂, hextend, hput, hiff, -, -, hhome⟩ :=
    extend_context_iff hd hbase hcontext c₀.home "x" [] c₀
  obtain rfl := hiff.mpr hb
  exact ⟨d, b, c₀, e, c₁, c₂, brand, hbuild, hbase, hb, hextend, hput, hbrand,
    hhome brand hbrand hof⟩

/-- A context for `run` alone on top of a full one is extended: the full one is lost. -/
theorem extend_context_nested :
    ∃ b c₁ d c₂ e c₃ e' c₄,
      (Effects.identity.complete >>= (·.withContext .full)) .empty = (.ok b, c₁) ∧
      b.withContext .runOnly c₁ = (.ok d, c₂) ∧
      ((d.extend c₂.home "x").overriding []).complete c₂ = (.ok e, c₃) ∧
      (((b.extend c₂.home "x").overriding []).complete >>= (·.withContext .runOnly)) c₂ =
        (.ok e', c₄) ∧
      e.name = "identity+x+context" ∧ e'.name = "identity+x+context+context" ∧
      e.contexts = [some .runOnly, none, none] ∧
      e'.contexts = [some .runOnly, some .full, none, none] :=
  ⟨_, _, _, _, _, _, _, _, rfl, rfl, rfl, rfl, rfl, rfl, rfl, rfl⟩

end Definition

end EffectLayers
